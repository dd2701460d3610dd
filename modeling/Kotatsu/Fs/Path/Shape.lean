import Kotatsu.Fs.Path.Components

/-!
# The shapes of a Windows prefix

The texts a Windows path can start with, complete and incomplete, and what may follow each.
Every path has a shape, and `windows_prefix` finds its name: so its trimming loop always
ends behind some character that is no separator.
-/

namespace Kotatsu.Fs.Path

open Kotatsu.Core

/-- The separator past a verbatim prefix. -/
def isBack (c : UInt8) : Bool := c == backslash

/-- Nothing follows, or a separator does. -/
def Ends (sep : UInt8 → Bool) (rest : Bytes) : Prop := ∀ c ∈ rest.head?, sep c = true

/-- A name: some characters, none of them a separator. -/
structure IsName (sep : UInt8 → Bool) (w : Bytes) : Prop where
  ne_nil : w ≠ []
  noSep : ∀ c ∈ w, sep c = false

/-- The name of a server that makes a path a device. -/
def isDeviceMark (w : Bytes) : Bool := w == [period] || w == [question]

/-- `kind`, the text `name` of the prefix, and what is behind it. -/
inductive Shape : Prefix → Bytes → Bytes → Prop
  | none {rest : Bytes} (hserver : startsWithServer rest = false)
      (hdrive : startsWithDrive rest = false) : Shape .none [] rest
  | drive {letter : UInt8} {rest : Bytes} (hletter : isAsciiLetter letter = true) :
      Shape .drive [letter, colon] rest
  | share {s t u : UInt8} {server name rest : Bytes} (hs : isSep s = true) (ht : isSep t = true)
      (hu : isSep u = true) (hserver : IsName isSep server) (hname : IsName isSep name)
      (hmark : isDeviceMark server = false) (hrest : Ends isSep rest) :
      Shape .unc ([s, t] ++ server ++ [u] ++ name) rest
  | server {s t : UInt8} {name rest : Bytes} (hs : isSep s = true) (ht : isSep t = true)
      (hname : IsName isSep name) (hmark : isDeviceMark name = true → rest = [])
      (hrest : Ends isSep rest) (hnext : Ends isSep (rest.drop 1)) :
      Shape .unc ([s, t] ++ name) rest
  | device {s t c u : UInt8} {name rest : Bytes} (hs : isSep s = true) (ht : isSep t = true)
      (hc : isDeviceMark [c] = true) (hu : isSep u = true) (hstart : [s, t, c, u] ≠ verbatimStart)
      (hname : IsName isSep name) (hrest : Ends isSep rest) :
      Shape .device ([s, t, c, u] ++ name) rest
  | noDevice {s t c u : UInt8} {rest : Bytes} (hs : isSep s = true) (ht : isSep t = true)
      (hc : isDeviceMark [c] = true) (hu : isSep u = true) (hstart : [s, t, c, u] ≠ verbatimStart)
      (hrest : Ends isSep rest) : Shape .device [s, t, c] (u :: rest)
  | verbatimDrive {letter : UInt8} {rest : Bytes} (hletter : isAsciiLetter letter = true)
      (hrest : Ends isBack rest) : Shape .verbatimDrive (verbatimStart ++ [letter, colon]) rest
  | verbatim {name rest : Bytes} (hname : IsName isBack name)
      (hunc : ¬ (startsWithUnc name = true ∧ name.length = 3))
      (hdrive : ¬ (startsWithDrive name = true ∧ name.length = 2)) (hrest : Ends isBack rest) :
      Shape .verbatim (verbatimStart ++ name) rest
  | noVerbatim {rest : Bytes} (hrest : Ends isBack rest) :
      Shape .verbatim [backslash, backslash, question] (backslash :: rest)
  | verbatimShare {word server name rest : Bytes} (hword : word.map asciiLower = ascii "unc")
      (hserver : ∀ c ∈ server, isBack c = false) (hname : IsName isBack name)
      (hrest : Ends isBack rest) :
      Shape .verbatimUnc
        (verbatimStart ++ word ++ [backslash] ++ server ++ [backslash] ++ name) rest
  | verbatimServer {word name rest : Bytes} (hword : word.map asciiLower = ascii "unc")
      (hname : IsName isBack name) (hrest : Ends isBack rest) (hnext : Ends isBack (rest.drop 1)) :
      Shape .verbatimUnc (verbatimStart ++ word ++ [backslash] ++ name) rest
  | noServer {word rest : Bytes} (hword : word.map asciiLower = ascii "unc")
      (hrest : Ends isBack rest) (hnext : Ends isBack (rest.drop 1))
      (hthird : Ends isBack (rest.drop 2)) : Shape .verbatimUnc (verbatimStart ++ word) rest

/-! ### Ends of names -/

variable {sep : UInt8 → Bool} {front w rest p : Bytes}

theorem Ends.nil : Ends sep [] := fun _ h => absurd h (by simp)

variable {c s t u : UInt8} {i : Nat} {kind : Prefix} {name word : Bytes}

theorem Ends.cons (h : sep c = true) : Ends sep (c :: rest) := by
  intro d hd
  cases hd
  exact h

theorem Ends.of_cons (h : Ends sep (c :: rest)) : sep c = true := h c rfl

/-- What follows stops where it may stop, when it is cut. -/
theorem Ends.take (h : Ends sep rest) (n : Nat) : Ends sep (rest.take n) := by
  cases rest with
  | nil => rw [List.take_nil]; exact Ends.nil
  | cons c rest =>
    cases n with
    | zero => exact Ends.nil
    | succ n => exact Ends.cons h.of_cons

theorem IsName.exists_concat (h : IsName sep w) :
    ∃ init c, w = init ++ [c] ∧ sep c = false := by
  rcases List.eq_nil_or_concat w with hnil | ⟨init, c, hw⟩
  · exact absurd hnil h.ne_nil
  · rw [List.concat_eq_append] at hw
    refine ⟨init, c, hw, h.noSep c ?_⟩
    rw [hw]
    simp

theorem takeWhile_word (hw : ∀ c ∈ w, sep c = false) (hrest : Ends sep rest) :
    (w ++ rest).takeWhile (!sep ·) = w := by
  induction w with
  | nil =>
    cases rest with
    | nil => rfl
    | cons c rest => exact List.takeWhile_cons_of_neg (by simp [hrest.of_cons])
  | cons c w ih =>
    rw [List.forall_mem_cons] at hw
    rw [List.cons_append, List.takeWhile_cons_of_pos (by simp [hw.1]), ih hw.2]

theorem isSeparator_windows : (isSeparator · .windows) = isSep := by
  funext c
  simp [isSeparator, isSep]

theorem nameEnd_append (hw : ∀ c ∈ w, isSep c = false) (hrest : Ends isSep rest)
    (hi : front.length = i) : nameEnd (front ++ (w ++ rest)) i .windows = i + w.length := by
  subst hi
  have hsep : (fun c => !isSeparator c .windows) = fun c => !isSep c := by
    funext c
    exact congrArg (!·) (congrFun isSeparator_windows c)
  rw [nameEnd, List.drop_left, hsep, takeWhile_word hw hrest]

theorem nameEnd_nil (hrest : Ends isSep rest) (hi : front.length = i) :
    nameEnd (front ++ rest) i .windows = i := by
  have hnone : ∀ c ∈ ([] : Bytes), isSep c = false := List.forall_mem_nil _
  exact nameEnd_append hnone hrest hi

theorem findIdx?_word (hw : ∀ c ∈ w, isBack c = false) (hrest : Ends isBack rest) :
    (w ++ rest).findIdx? (· == backslash) = if rest = [] then none else some w.length := by
  have hnone : w.findIdx? (· == backslash) = none := List.findIdx?_eq_none_iff.mpr hw
  rw [List.findIdx?_append, hnone, Option.none_or]
  cases rest with
  | nil => rfl
  | cons c rest =>
    rw [List.findIdx?_cons]
    have hc : (c == backslash) = true := hrest.of_cons
    rw [hc]
    simp

theorem componentEnd_append (hw : ∀ c ∈ w, isBack c = false) (hrest : Ends isBack rest)
    (hi : front.length = i) : componentEnd (front ++ (w ++ rest)) i = i + w.length := by
  subst hi
  rw [componentEnd, List.drop_left, findIdx?_word hw hrest]
  by_cases hnil : rest = []
  · rw [if_pos hnil, hnil, List.append_nil, List.length_append]
  · rw [if_neg hnil]

/-- The name of a prefix goes up to the last character that is no separator. -/
theorem prefixOf_concat (kind : Prefix) (front : Bytes) (hc : separates .windows kind c = false)
    (k : Nat) (hk : ∀ i, i < k → (rest[i]?).any (separates .windows kind) = true) {stop : Nat}
    (hstop : stop = front.length + 1 + k) (hp : p = front ++ [c] ++ rest) :
    prefixOf p kind stop = some { kind := kind, name := front ++ [c], directory := [] } := by
  subst hstop hp
  have htrim : trim (front ++ [c] ++ rest) kind (front.length + 1 + k) =
      some (front.length + 1) := by
    refine trim_of_all (by omega) ?_ fun i hi hlt => ?_
    · rw [List.append_assoc, List.getElem?_append_right (Nat.le_refl _), Nat.sub_self]
      simpa using hc
    · rw [List.getElem?_append_right (by simp; omega), List.length_append,
        List.length_singleton]
      exact hk _ (by omega)
  have htake : (front ++ [c] ++ rest).take (front.length + 1) = front ++ [c] := by
    have hlen : (front ++ [c]).length = front.length + 1 := by simp
    rw [← hlen, List.take_left]
  rw [prefixOf, htrim, Option.map_some, htake]

theorem prefixOf_name_end (kind : Prefix) (front : Bytes)
    (hw : IsName (separates .windows kind) w) {stop : Nat} (k : Nat)
    (hk : ∀ i, i < k → (rest[i]?).any (separates .windows kind) = true)
    (hstop : stop = front.length + w.length + k) (hp : p = front ++ w ++ rest) :
    prefixOf p kind stop = some { kind := kind, name := front ++ w, directory := [] } := by
  obtain ⟨init, c, rfl, hc⟩ := hw.exists_concat
  have hlen : stop = (front ++ init).length + 1 + k := by
    rw [hstop]
    simp
    omega
  have h := prefixOf_concat kind (front ++ init) hc k hk hlen
    (show p = front ++ init ++ [c] ++ rest by rw [hp]; simp)
  rw [h, List.append_assoc]

theorem separates_windows (h : isVerbatim kind = false) : separates .windows kind = isSep := by
  rw [separates_of_not_verbatim h, isSeparator_windows]

theorem separates_verbatim (h : isVerbatim kind = true) (style : Style) :
    separates style kind = isBack := by
  funext c
  rw [separates, h]
  rfl

/-! ### How a path starts -/

theorem isPrefixOf_false (h : startsWithDevice p = false) : verbatimStart.isPrefixOf p = false := by
  cases hstart : verbatimStart.isPrefixOf p with
  | false => rfl
  | true =>
    obtain ⟨r, rfl⟩ := List.isPrefixOf_iff_prefix.mp hstart
    cases h

theorem startsWithDevice_false (h : startsWithServer p = false) : startsWithDevice p = false := by
  match p with
  | [] | [_] | [_, _] | [_, _, _] => rfl
  | s :: t :: c :: u :: r =>
    rw [startsWithServer] at h
    rw [startsWithDevice]
    by_cases hmark : c = period ∨ c = question
    · have hc : isSep c = false := by
        obtain rfl | rfl := hmark
        · rfl
        · rfl
      rw [hc, Bool.not_false, Bool.and_true] at h
      rw [h]
      rfl
    · have hno : (c == period || c == question) = false := by simpa using hmark
      rw [hno, Bool.and_false, Bool.false_and]

/-- A server is no device mark, or nothing is behind it. -/
theorem startsWithDevice_server (hw : IsName isSep w) (hmark : isDeviceMark w = true → rest = []) :
    startsWithDevice ([s, t] ++ w ++ rest) = false := by
  match w, hw with
  | [c], hw =>
    cases rest with
    | nil => rfl
    | cons u rest =>
      have hno : isDeviceMark [c] = false := by
        cases h : isDeviceMark [c] with
        | false => rfl
        | true => cases hmark h
      have hc : (c == period || c == question) = false := by
        simpa [isDeviceMark] using hno
      have hdef : startsWithDevice ([s, t] ++ [c] ++ u :: rest) =
          (isSep s && isSep t && (c == period || c == question) && isSep u) := rfl
      rw [hdef, hc, Bool.and_false, Bool.false_and]
  | c :: d :: w, hw =>
    have hd : isSep d = false := hw.noSep d (by simp)
    have hdef : startsWithDevice ([s, t] ++ (c :: d :: w) ++ rest) =
        (isSep s && isSep t && (c == period || c == question) && isSep d) := rfl
    rw [hdef, hd, Bool.and_false]

theorem startsWithServer_append (hs : isSep s = true) (ht : isSep t = true) (hw : IsName isSep w) :
    startsWithServer ([s, t] ++ w ++ rest) = true := by
  obtain ⟨c, w, rfl⟩ := List.exists_cons_of_ne_nil hw.ne_nil
  have hdef : startsWithServer ([s, t] ++ (c :: w) ++ rest) =
      (isSep s && isSep t && !isSep c) := rfl
  rw [hdef, hs, ht, hw.noSep c List.mem_cons_self]
  rfl

theorem windowsPrefix_unc (hdevice : startsWithDevice p = false)
    (hserver : startsWithServer p = true) : windowsPrefix p = uncPrefix p := by
  rw [windowsPrefix, isPrefixOf_false hdevice, hdevice, hserver, if_neg Bool.false_ne_true,
    if_neg Bool.false_ne_true, if_pos rfl]

theorem windowsPrefix_device (hs : isSep s = true) (ht : isSep t = true)
    (hc : isDeviceMark [c] = true) (hu : isSep u = true) (hstart : [s, t, c, u] ≠ verbatimStart) :
    windowsPrefix ([s, t, c, u] ++ rest) =
      prefixOf ([s, t, c, u] ++ rest) .device (nameEnd ([s, t, c, u] ++ rest) 4 .windows) := by
  have hno : verbatimStart.isPrefixOf ([s, t, c, u] ++ rest) = false := by
    cases hp : verbatimStart.isPrefixOf ([s, t, c, u] ++ rest) with
    | false => rfl
    | true =>
      obtain ⟨r, hr⟩ := List.isPrefixOf_iff_prefix.mp hp
      refine absurd ?_ hstart
      have htake := congrArg (List.take 4) hr
      exact htake.symm
  have hdevice : startsWithDevice ([s, t, c, u] ++ rest) = true := by
    have hdef : startsWithDevice ([s, t, c, u] ++ rest) =
        (isSep s && isSep t && (c == period || c == question) && isSep u) := rfl
    have hc' : (c == period || c == question) = true := by simpa [isDeviceMark] using hc
    rw [hdef, hs, ht, hc', hu]
    rfl
  rw [windowsPrefix, hno, hdevice, if_neg Bool.false_ne_true, if_pos rfl]

theorem windowsPrefix_verbatim : windowsPrefix (verbatimStart ++ rest) =
    verbatimPrefix (verbatimStart ++ rest) := by
  have hyes : verbatimStart.isPrefixOf (verbatimStart ++ rest) = true :=
    List.isPrefixOf_iff_prefix.mpr (List.prefix_append _ _)
  rw [windowsPrefix, hyes, if_pos rfl]

/-! ### The prefix of each shape -/

theorem windowsPrefix_share {server name rest : Bytes} (hs : isSep s = true) (ht : isSep t = true)
    (hu : isSep u = true) (hserver : IsName isSep server) (hname : IsName isSep name)
    (hmark : isDeviceMark server = false) (hrest : Ends isSep rest) :
    windowsPrefix ([s, t] ++ server ++ [u] ++ name ++ rest) =
      some { kind := .unc, name := [s, t] ++ server ++ [u] ++ name, directory := [] } := by
  let p := [s, t] ++ server ++ [u] ++ name ++ rest
  have hp : p = [s, t] ++ server ++ (u :: (name ++ rest)) := by simp [p]
  have hunc : windowsPrefix p = uncPrefix p := by
    rw [hp]
    exact windowsPrefix_unc
      (startsWithDevice_server hserver fun h => absurd (hmark.symm.trans h) (by simp))
      (startsWithServer_append hs ht hserver)
  have hend : nameEnd p 2 .windows = 2 + server.length := by
    rw [hp, List.append_assoc]
    exact nameEnd_append hserver.noSep (Ends.cons hu) rfl
  have hend' : nameEnd p (2 + server.length + 1) .windows =
      2 + server.length + 1 + name.length := by
    have hcut : p = ([s, t] ++ server ++ [u]) ++ (name ++ rest) := by simp [p]
    rw [hcut]
    exact nameEnd_append hname.noSep hrest (by simp; omega)
  obtain ⟨c, w, hw⟩ := List.exists_cons_of_ne_nil hname.ne_nil
  have hget : p[2 + server.length + 1]? = some c := by
    have hcut : p = ([s, t] ++ server ++ [u]) ++ (c :: (w ++ rest)) := by simp [p, hw]
    rw [hcut, List.getElem?_append_right (by simp; omega)]
    have hzero : 2 + server.length + 1 - ([s, t] ++ server ++ [u]).length = 0 := by simp; omega
    rw [hzero]
    rfl
  have hlt : 2 + server.length + 1 < p.length := (List.getElem?_eq_some_iff.mp hget).1
  have hc : isSep c = false := hname.noSep c (by rw [hw]; exact List.mem_cons_self)
  have hlen : 2 + server.length + 1 + name.length =
      ([s, t] ++ server ++ [u]).length + name.length + 0 := by
    simp
    omega
  have hpre := prefixOf_name_end .unc ([s, t] ++ server ++ [u])
    (by rw [separates_windows rfl]; exact hname) 0 (fun i hi => by omega) hlen
    (show p = [s, t] ++ server ++ [u] ++ name ++ rest from rfl)
  rw [hunc, uncPrefix, hend]
  rw [hget, Option.any_some, hc, decide_eq_true hlt, hend']
  exact hpre

theorem windowsPrefix_server {name rest : Bytes} (hs : isSep s = true) (ht : isSep t = true)
    (hname : IsName isSep name) (hmark : isDeviceMark name = true → rest = [])
    (hrest : Ends isSep rest) (hnext : Ends isSep (rest.drop 1)) :
    windowsPrefix ([s, t] ++ name ++ rest) =
      some { kind := .unc, name := [s, t] ++ name, directory := [] } := by
  let p := [s, t] ++ name ++ rest
  have hunc : windowsPrefix p = uncPrefix p :=
    windowsPrefix_unc (startsWithDevice_server hname hmark) (startsWithServer_append hs ht hname)
  have hend : nameEnd p 2 .windows = 2 + name.length := by
    have hcut : p = [s, t] ++ (name ++ rest) := List.append_assoc _ _ _
    rw [hcut]
    exact nameEnd_append hname.noSep hrest rfl
  have hget : p[2 + name.length + 1]? = (rest.drop 1).head? := by
    have hlen : ([s, t] ++ name).length = 2 + name.length := List.length_append
    have hle : ([s, t] ++ name).length ≤ 2 + name.length + 1 := hlen ▸ Nat.le_succ _
    rw [List.getElem?_append_right hle, hlen, Nat.add_sub_cancel_left, List.head?_drop]
  have hpre := prefixOf_name_end .unc [s, t]
    (by rw [separates_windows rfl]; exact hname) 0 (fun i hi => by omega)
    (show 2 + name.length = [s, t].length + name.length + 0 from rfl)
    (show p = [s, t] ++ name ++ rest from rfl)
  have hno : (decide (2 + name.length + 1 < p.length) &&
      !(p[2 + name.length + 1]?).any isSep) = false := by
    rw [hget]
    cases hhead : (rest.drop 1).head? with
    | none =>
      have hge : p.length ≤ 2 + name.length + 1 :=
        List.getElem?_eq_none_iff.mp (hget.trans hhead)
      rw [decide_eq_false (by omega)]
      rfl
    | some c =>
      rw [Option.any_some, hnext c hhead, Bool.not_true, Bool.and_false]
  rw [hunc, uncPrefix, hend]
  rw [hno, if_neg Bool.false_ne_true]
  exact hpre

theorem windowsPrefix_of_device {name rest : Bytes} (hs : isSep s = true) (ht : isSep t = true)
    (hc : isDeviceMark [c] = true) (hu : isSep u = true) (hstart : [s, t, c, u] ≠ verbatimStart)
    (hname : IsName isSep name) (hrest : Ends isSep rest) :
    windowsPrefix ([s, t, c, u] ++ name ++ rest) =
      some { kind := .device, name := [s, t, c, u] ++ name, directory := [] } := by
  have hpre := prefixOf_name_end .device [s, t, c, u]
    (by rw [separates_windows rfl]; exact hname) 0 (fun i hi => by omega)
    (show 4 + name.length = [s, t, c, u].length + name.length + 0 from rfl)
    (show [s, t, c, u] ++ name ++ rest = [s, t, c, u] ++ name ++ rest from rfl)
  have hend : nameEnd ([s, t, c, u] ++ (name ++ rest)) 4 .windows = 4 + name.length :=
    nameEnd_append hname.noSep hrest rfl
  rw [List.append_assoc] at hpre ⊢
  rw [windowsPrefix_device hs ht hc hu hstart, hend]
  exact hpre

theorem isSep_of_mark (h : isDeviceMark [c] = true) : isSep c = false := by
  have hc : c = period ∨ c = question := by simpa [isDeviceMark] using h
  obtain rfl | rfl := hc
  · rfl
  · rfl

theorem windowsPrefix_of_noDevice {rest : Bytes} (hs : isSep s = true) (ht : isSep t = true)
    (hc : isDeviceMark [c] = true) (hu : isSep u = true) (hstart : [s, t, c, u] ≠ verbatimStart)
    (hrest : Ends isSep rest) :
    windowsPrefix ([s, t, c] ++ u :: rest) =
      some { kind := .device, name := [s, t, c], directory := [] } := by
  have hend : nameEnd ([s, t, c, u] ++ rest) 4 .windows = 4 :=
    nameEnd_nil hrest (show [s, t, c, u].length = 4 from rfl)
  have hsep : ∀ i, i < 1 → ((u :: rest)[i]?).any (separates .windows .device) = true := by
    intro i hi
    obtain rfl : i = 0 := by omega
    rw [separates_windows rfl]
    exact hu
  have hpre := prefixOf_concat .device [s, t]
    (by rw [separates_windows rfl]; exact isSep_of_mark hc) 1 hsep
    (show 4 = [s, t].length + 1 + 1 from rfl)
    (show [s, t, c, u] ++ rest = [s, t] ++ [c] ++ u :: rest from rfl)
  have hcut : [s, t, c] ++ u :: rest = [s, t, c, u] ++ rest := rfl
  rw [hcut, windowsPrefix_device hs ht hc hu hstart, hend]
  exact hpre

/-! ### Verbatim prefixes -/

theorem endsVerbatim_iff : endsVerbatim rest = true ↔ Ends isBack rest := by
  cases rest with
  | nil => exact iff_of_true rfl Ends.nil
  | cons c rest => exact ⟨fun h => Ends.cons h, fun h => h.of_cons⟩

/-- A text that ends where a name of a path does, and holds no separator, is the name. -/
theorem take_eq_name (hname : ∀ c ∈ name, isBack c = false) (hrest : Ends isBack rest) {k : Nat}
    (hno : ∀ c ∈ (name ++ rest).take k, isBack c = false)
    (hend : endsVerbatim ((name ++ rest).drop k) = true) : (name ++ rest).take k = name := by
  have h := takeWhile_word hno (endsVerbatim_iff.mp hend)
  rw [List.take_append_drop, takeWhile_word hname hrest] at h
  exact h.symm

theorem length_of_lower (h : word.map asciiLower = ascii "unc") : word.length = 3 := by
  rw [← List.length_map (f := asciiLower), h]
  rfl

theorem noSep_of_lower (h : word.map asciiLower = ascii "unc") : ∀ c ∈ word, isBack c = false := by
  intro c hc
  cases hback : isBack c with
  | false => rfl
  | true =>
    have heq : c = backslash := by simpa [isBack] using hback
    have hmem : asciiLower c ∈ ascii "unc" := h ▸ List.mem_map_of_mem hc
    rw [heq] at hmem
    exact absurd hmem (by decide)

theorem isName_of_lower (h : word.map asciiLower = ascii "unc") : IsName isBack word where
  ne_nil := fun hnil => absurd (hnil ▸ length_of_lower h) (by decide)
  noSep := noSep_of_lower h

theorem startsWithUnc_iff : startsWithUnc p = true ↔ (p.take 3).map asciiLower = ascii "unc" := by
  rw [startsWithUnc, beq_iff_eq]

theorem not_unc (hname : ∀ c ∈ name, isBack c = false) (hrest : Ends isBack rest)
    (hunc : ¬ (startsWithUnc name = true ∧ name.length = 3)) :
    (startsWithUnc (name ++ rest) && endsVerbatim ((name ++ rest).drop 3)) = false := by
  rw [Bool.eq_false_iff, ne_eq, Bool.and_eq_true]
  rintro ⟨hstart, hend⟩
  rw [startsWithUnc_iff] at hstart
  have htake := take_eq_name hname hrest (noSep_of_lower hstart) hend
  rw [htake] at hstart
  have hlen : name.length = 3 := length_of_lower hstart
  refine hunc ⟨startsWithUnc_iff.mpr ?_, hlen⟩
  rw [List.take_of_length_le (Nat.le_of_eq hlen)]
  exact hstart

theorem not_drive (hname : ∀ c ∈ name, isBack c = false) (hrest : Ends isBack rest)
    (hdrive : ¬ (startsWithDrive name = true ∧ name.length = 2)) :
    (startsWithDrive (name ++ rest) && endsVerbatim ((name ++ rest).drop 2)) = false := by
  rw [Bool.eq_false_iff, ne_eq, Bool.and_eq_true]
  rintro ⟨hstart, hend⟩
  cases hp : name ++ rest with
  | nil =>
    rw [hp] at hstart
    cases hstart
  | cons letter r =>
    cases r with
    | nil =>
      rw [hp] at hstart
      cases hstart
    | cons c r =>
      rw [hp, startsWithDrive, Bool.and_eq_true, beq_iff_eq] at hstart
      have hno : ∀ x ∈ (name ++ rest).take 2, isBack x = false := by
        rw [hp]
        intro x hx
        have hx : x = letter ∨ x = c := by simpa using hx
        cases hback : isBack x with
        | false => rfl
        | true =>
          have heq : x = backslash := by simpa [isBack] using hback
          subst heq
          obtain rfl | rfl := hx
          · exact absurd hstart.1 (by decide)
          · exact absurd hstart.2 (by decide)
      have htake := take_eq_name hname hrest hno hend
      rw [hp] at htake
      refine hdrive ?_
      rw [← htake]
      exact ⟨by simp [startsWithDrive, hstart.1, hstart.2], rfl⟩

theorem windowsPrefix_of_verbatimDrive {letter : UInt8} (hletter : isAsciiLetter letter = true)
    (hrest : Ends isBack rest) :
    windowsPrefix (verbatimStart ++ [letter, colon] ++ rest) =
      some { kind := .verbatimDrive, name := verbatimStart ++ [letter, colon],
             directory := [] } := by
  have hunc : startsWithUnc ([letter, colon] ++ rest) = false := by
    rw [Bool.eq_false_iff, ne_eq, startsWithUnc_iff]
    intro h
    have hmem : asciiLower colon ∈ ascii "unc" := h ▸ List.mem_map_of_mem (by simp)
    exact absurd hmem (by decide)
  have hdrive : startsWithDrive ([letter, colon] ++ rest) = true := by
    have hdef : startsWithDrive ([letter, colon] ++ rest) =
        (isAsciiLetter letter && colon == colon) := rfl
    rw [hdef, hletter]
    rfl
  have hend : endsVerbatim (([letter, colon] ++ rest).drop 2) = true := endsVerbatim_iff.mpr hrest
  have hpre := prefixOf_concat .verbatimDrive (verbatimStart ++ [letter])
    (show separates .windows .verbatimDrive colon = false from rfl) 0 (fun i hi => by omega)
    (show 6 = (verbatimStart ++ [letter]).length + 1 + 0 from rfl)
    (show verbatimStart ++ ([letter, colon] ++ rest) =
      verbatimStart ++ [letter] ++ [colon] ++ rest by simp)
  rw [List.append_assoc, windowsPrefix_verbatim, verbatimPrefix]
  have hdrop : (verbatimStart ++ ([letter, colon] ++ rest)).drop 4 = [letter, colon] ++ rest := rfl
  dsimp only
  rw [hdrop, hunc, Bool.false_and, if_neg Bool.false_ne_true, hdrive, hend, Bool.true_and,
    if_pos rfl, hpre, List.append_assoc]
  rfl

theorem windowsPrefix_of_verbatim (hname : IsName isBack name)
    (hunc : ¬ (startsWithUnc name = true ∧ name.length = 3))
    (hdrive : ¬ (startsWithDrive name = true ∧ name.length = 2)) (hrest : Ends isBack rest) :
    windowsPrefix (verbatimStart ++ name ++ rest) =
      some { kind := .verbatim, name := verbatimStart ++ name, directory := [] } := by
  have hend : componentEnd (verbatimStart ++ (name ++ rest)) 4 = 4 + name.length :=
    componentEnd_append hname.noSep hrest rfl
  have hpre := prefixOf_name_end .verbatim verbatimStart
    (by rw [separates_verbatim rfl]; exact hname) 0 (fun i hi => by omega)
    (show 4 + name.length = verbatimStart.length + name.length + 0 from rfl)
    (show verbatimStart ++ (name ++ rest) = verbatimStart ++ name ++ rest by simp)
  have hdrop : (verbatimStart ++ (name ++ rest)).drop 4 = name ++ rest := rfl
  rw [List.append_assoc, windowsPrefix_verbatim, verbatimPrefix]
  dsimp only
  rw [hdrop, not_unc hname.noSep hrest hunc, if_neg Bool.false_ne_true,
    not_drive hname.noSep hrest hdrive, if_neg Bool.false_ne_true, hend]
  exact hpre

theorem windowsPrefix_of_noVerbatim (hrest : Ends isBack rest) :
    windowsPrefix ([backslash, backslash, question] ++ backslash :: rest) =
      some { kind := .verbatim, name := [backslash, backslash, question], directory := [] } := by
  have hnone : ∀ c ∈ ([] : Bytes), isBack c = false := List.forall_mem_nil _
  have hend : componentEnd (verbatimStart ++ ([] ++ rest)) 4 = 4 + ([] : Bytes).length :=
    componentEnd_append hnone hrest rfl
  have hsep : ∀ i, i < 1 → ((backslash :: rest)[i]?).any (separates .windows .verbatim) = true := by
    intro i hi
    obtain rfl : i = 0 := by omega
    rfl
  have hpre := prefixOf_concat .verbatim [backslash, backslash]
    (show separates .windows .verbatim question = false from rfl) 1 hsep
    (show 4 = [backslash, backslash].length + 1 + 1 from rfl)
    (show verbatimStart ++ ([] ++ rest) =
      [backslash, backslash] ++ [question] ++ backslash :: rest from rfl)
  have hcut : [backslash, backslash, question] ++ backslash :: rest =
      verbatimStart ++ ([] ++ rest) := rfl
  have hdrop : (verbatimStart ++ ([] ++ rest)).drop 4 = [] ++ rest := rfl
  rw [hcut, windowsPrefix_verbatim, verbatimPrefix]
  dsimp only
  rw [hdrop, not_unc hnone hrest (by simp), if_neg Bool.false_ne_true,
    not_drive hnone hrest (by simp), if_neg Bool.false_ne_true, hend]
  exact hpre

/-! ### Verbatim shares -/

/-- The name of a verbatim share ends with its second component. -/
theorem verbatimPrefix_unc {word : Bytes} (hword : word.map asciiLower = ascii "unc")
    (hrest : Ends isBack rest) :
    verbatimPrefix (verbatimStart ++ word ++ rest) =
      prefixOf (verbatimStart ++ word ++ rest) .verbatimUnc
        (let p := verbatimStart ++ word ++ rest
         let serverEnd := componentEnd p (min p.length 8)
         if serverEnd < p.length then componentEnd p (serverEnd + 1) else serverEnd) := by
  have hlen : word.length = 3 := length_of_lower hword
  have hdrop : (verbatimStart ++ word ++ rest).drop 4 = word ++ rest := by
    rw [List.append_assoc]
    rfl
  have htake : (word ++ rest).take 3 = word := by rw [← hlen, List.take_left]
  have htail : (word ++ rest).drop 3 = rest := by rw [← hlen, List.drop_left]
  have hunc : startsWithUnc (word ++ rest) = true := by
    rw [startsWithUnc_iff, htake]
    exact hword
  rw [verbatimPrefix]
  dsimp only
  rw [hdrop, hunc, htail, endsVerbatim_iff.mpr hrest, Bool.true_and, if_pos rfl]

theorem windowsPrefix_of_verbatimShare {word server name : Bytes}
    (hword : word.map asciiLower = ascii "unc") (hserver : ∀ c ∈ server, isBack c = false)
    (hname : IsName isBack name) (hrest : Ends isBack rest) :
    windowsPrefix (verbatimStart ++ word ++ [backslash] ++ server ++ [backslash] ++ name ++ rest) =
      some { kind := .verbatimUnc,
             name := verbatimStart ++ word ++ [backslash] ++ server ++ [backslash] ++ name,
             directory := [] } := by
  have hlen : word.length = 3 := length_of_lower hword
  let p := verbatimStart ++ word ++ [backslash] ++ server ++ [backslash] ++ name ++ rest
  have hfront : (verbatimStart ++ word ++ [backslash]).length = 8 := by
    simp [verbatimStart, hlen]
  have hcut : p = (verbatimStart ++ word ++ [backslash]) ++
      (server ++ (backslash :: (name ++ rest))) := by simp [p]
  have hcut' : p = (verbatimStart ++ word ++ [backslash] ++ server ++ [backslash]) ++
      (name ++ rest) := by simp [p]
  have hplen : p.length = 8 + server.length + 1 + name.length + rest.length := by
    rw [hcut]
    simp only [List.length_append, List.length_cons] at hfront ⊢
    omega
  have hend : componentEnd p (min p.length 8) = 8 + server.length := by
    rw [Nat.min_eq_right (by omega), hcut]
    exact componentEnd_append hserver (Ends.cons rfl) hfront
  have hend' : componentEnd p (8 + server.length + 1) = 8 + server.length + 1 + name.length := by
    rw [hcut']
    refine componentEnd_append hname.noSep hrest ?_
    simp only [List.length_append, List.length_cons, List.length_nil] at hfront ⊢
    omega
  have hstop : 8 + server.length + 1 + name.length =
      (verbatimStart ++ word ++ [backslash] ++ server ++ [backslash]).length + name.length + 0 := by
    simp only [List.length_append, List.length_cons, List.length_nil] at hfront ⊢
    omega
  have hpre := prefixOf_name_end .verbatimUnc
    (verbatimStart ++ word ++ [backslash] ++ server ++ [backslash])
    (by rw [separates_verbatim rfl]; exact hname) 0 (fun i hi => by omega) hstop
    (show p = verbatimStart ++ word ++ [backslash] ++ server ++ [backslash] ++ name ++ rest
      from rfl)
  have hwhole : p = verbatimStart ++ word ++
      (backslash :: (server ++ (backslash :: (name ++ rest)))) := by simp [p]
  have hspells : windowsPrefix p = prefixOf p .verbatimUnc
      (let serverEnd := componentEnd p (min p.length 8)
       if serverEnd < p.length then componentEnd p (serverEnd + 1) else serverEnd) := by
    have hends : Ends isBack (backslash :: (server ++ (backslash :: (name ++ rest)))) :=
      Ends.cons rfl
    have hverb := verbatimPrefix_unc hword hends
    rw [← hwhole] at hverb
    rw [← hverb, hwhole, List.append_assoc]
    exact windowsPrefix_verbatim
  rw [hspells]
  dsimp only
  rw [hend, if_pos (by omega), hend']
  exact hpre

theorem windowsPrefix_of_verbatimServer (hword : word.map asciiLower = ascii "unc")
    (hname : IsName isBack name) (hrest : Ends isBack rest) (hnext : Ends isBack (rest.drop 1)) :
    windowsPrefix (verbatimStart ++ word ++ [backslash] ++ name ++ rest) =
      some { kind := .verbatimUnc, name := verbatimStart ++ word ++ [backslash] ++ name,
             directory := [] } := by
  have hlen : word.length = 3 := length_of_lower hword
  let front := verbatimStart ++ word ++ [backslash]
  have hfront : front.length = 8 := by simp [front, verbatimStart, hlen]
  let p := front ++ name ++ rest
  have hplen : p.length = 8 + name.length + rest.length := by
    simp only [p, List.length_append, hfront]
  have hcut : p = front ++ (name ++ rest) := List.append_assoc _ _ _
  have hend : componentEnd p (min p.length 8) = 8 + name.length := by
    rw [Nat.min_eq_right (by omega), hcut]
    exact componentEnd_append hname.noSep hrest hfront
  have hname' : IsName (separates .windows .verbatimUnc) name := by
    rw [separates_verbatim rfl]
    exact hname
  have hwhole : p = verbatimStart ++ word ++ (backslash :: (name ++ rest)) := by simp [p, front]
  have hspells : windowsPrefix p = prefixOf p .verbatimUnc
      (let serverEnd := componentEnd p (min p.length 8)
       if serverEnd < p.length then componentEnd p (serverEnd + 1) else serverEnd) := by
    have hends : Ends isBack (backslash :: (name ++ rest)) := Ends.cons rfl
    have hverb := verbatimPrefix_unc hword hends
    rw [← hwhole] at hverb
    rw [← hverb, hwhole, List.append_assoc]
    exact windowsPrefix_verbatim
  have hgoal : windowsPrefix p =
      some { kind := .verbatimUnc, name := front ++ name, directory := [] } := by
    rw [hspells]
    dsimp only
    rw [hend]
    cases rest with
    | nil =>
      rw [if_neg (by rw [hplen]; simp)]
      exact prefixOf_name_end .verbatimUnc front hname' 0 (fun i hi => by omega)
        (by rw [hfront]; rfl) rfl
    | cons c rest =>
      -- the share behind the server is empty, so its separator is trimmed
      have hc : c = backslash := by simpa [isBack] using hrest.of_cons
      have hnone : ∀ c ∈ ([] : Bytes), isBack c = false := List.forall_mem_nil _
      have hend' : componentEnd p (8 + name.length + 1) =
          8 + name.length + 1 + ([] : Bytes).length := by
        have hcut' : p = (front ++ name ++ [c]) ++ ([] ++ rest) := by simp [p]
        rw [hcut']
        refine componentEnd_append hnone hnext ?_
        simp only [List.length_append, List.length_cons, List.length_nil, hfront]
      have hsep : ∀ i, i < 1 → ((c :: rest)[i]?).any (separates .windows .verbatimUnc) = true := by
        intro i hi
        obtain rfl : i = 0 := by omega
        rw [hc]
        rfl
      rw [if_pos (by rw [hplen, List.length_cons]; omega), hend']
      exact prefixOf_name_end .verbatimUnc front hname' 1 hsep (by rw [hfront]; rfl) rfl
  exact hgoal

theorem windowsPrefix_of_noServer (hword : word.map asciiLower = ascii "unc")
    (hrest : Ends isBack rest) (hnext : Ends isBack (rest.drop 1))
    (hthird : Ends isBack (rest.drop 2)) :
    windowsPrefix (verbatimStart ++ word ++ rest) =
      some { kind := .verbatimUnc, name := verbatimStart ++ word, directory := [] } := by
  have hlen : (verbatimStart ++ word).length = 7 := by
    rw [List.length_append, length_of_lower hword]
    rfl
  let p := verbatimStart ++ word ++ rest
  have hplen : p.length = 7 + rest.length := by rw [List.length_append, hlen]
  have hword' : IsName (separates .windows .verbatimUnc) word := by
    rw [separates_verbatim rfl]
    exact isName_of_lower hword
  have hnone : ∀ c ∈ ([] : Bytes), isBack c = false := List.forall_mem_nil _
  have hspells : windowsPrefix p = prefixOf p .verbatimUnc
      (let serverEnd := componentEnd p (min p.length 8)
       if serverEnd < p.length then componentEnd p (serverEnd + 1) else serverEnd) := by
    rw [← verbatimPrefix_unc hword hrest]
    simp only [p, List.append_assoc]
    exact windowsPrefix_verbatim
  have hname : ∀ k stop, (∀ i, i < k → (rest[i]?).any isBack = true) → stop = 7 + k →
      prefixOf p .verbatimUnc stop =
        some { kind := .verbatimUnc, name := verbatimStart ++ word, directory := [] } := by
    intro k stop hk hstop
    refine prefixOf_name_end .verbatimUnc verbatimStart hword' k ?_ ?_ rfl
    · rw [separates_verbatim rfl]
      exact hk
    · rw [hstop, length_of_lower hword]
      rfl
  have hat : ∀ before after, rest = before ++ after → Ends isBack after →
      componentEnd p (7 + before.length) = 7 + before.length := by
    intro before after hcut hends
    have hp : p = (verbatimStart ++ word ++ before) ++ ([] ++ after) := by simp [p, hcut]
    rw [hp]
    exact componentEnd_append hnone hends (by rw [List.length_append, hlen])
  have hgoal : windowsPrefix p =
      some { kind := .verbatimUnc, name := verbatimStart ++ word, directory := [] } := by
    rw [hspells]
    dsimp only
    match rest, hrest, hnext, hthird with
    | [], _, _, _ =>
      have hend := hat [] [] rfl Ends.nil
      rw [List.length_nil, Nat.add_zero] at hend
      have hseven : p.length = 7 := hplen
      rw [hseven, show min 7 8 = 7 from rfl, hend, if_neg (Nat.lt_irrefl 7)]
      exact hname 0 7 (fun i hi => by omega) rfl
    | [c], hrest, _, _ =>
      have hend := hat [c] [] rfl Ends.nil
      have height : p.length = 8 := hplen
      rw [height, show min 8 8 = 7 + [c].length from rfl, hend,
        if_neg (show ¬ 7 + [c].length < 8 from Nat.lt_irrefl 8)]
      refine hname 1 _ (fun i hi => ?_) rfl
      obtain rfl : i = 0 := by omega
      exact hrest.of_cons
    | c :: d :: after, hrest, hnext, hthird =>
      have hend := hat [c] (d :: after) rfl hnext
      have hend' := hat [c, d] after rfl hthird
      have hlt : 7 + [c].length < p.length := by
        simp only [hplen, List.length_cons, List.length_nil]
        omega
      have hmin : min p.length 8 = 7 + [c].length := by
        rw [List.length_singleton] at hlt ⊢
        omega
      rw [hmin, hend, if_pos hlt]
      refine (congrArg _ hend').trans (hname 2 _ (fun i hi => ?_) rfl)
      match i, hi with
      | 0, _ => exact hrest.of_cons
      | 1, _ => exact hnext.of_cons
  exact hgoal

/-- The prefix of a shape is its name. -/
theorem Shape.windowsPrefix {name rest : Bytes} (h : Shape kind name rest) :
    windowsPrefix (name ++ rest) = some { kind := kind, name := name, directory := [] } := by
  cases h with
  | none hserver hdrive =>
    have hdevice := startsWithDevice_false hserver
    rw [List.nil_append, Path.windowsPrefix, isPrefixOf_false hdevice, hdevice, hserver, hdrive]
    rfl
  | drive hletter =>
    rename_i letter
    have hdrive : startsWithDrive ([letter, colon] ++ rest) = true := by
      have hdef : startsWithDrive ([letter, colon] ++ rest) =
          (isAsciiLetter letter && colon == colon) := rfl
      rw [hdef, hletter]
      rfl
    have hserver : startsWithServer ([letter, colon] ++ rest) = false := by
      have hc : isSep colon = false := rfl
      cases rest with
      | nil => rfl
      | cons c rest =>
        have hdef : startsWithServer ([letter, colon] ++ c :: rest) =
            (isSep letter && isSep colon && !isSep c) := rfl
        rw [hdef, hc, Bool.and_false, Bool.false_and]
    have hdevice := startsWithDevice_false hserver
    rw [Path.windowsPrefix, isPrefixOf_false hdevice, hdevice, hserver, hdrive,
      if_neg Bool.false_ne_true, if_neg Bool.false_ne_true, if_neg Bool.false_ne_true, if_pos rfl]
    exact prefixOf_concat .drive [letter] (show separates .windows .drive colon = false from rfl) 0
      (fun i hi => by omega) rfl rfl
  | share hs ht hu hserver hname hmark hrest =>
    exact windowsPrefix_share hs ht hu hserver hname hmark hrest
  | server hs ht hname hmark hrest hnext =>
    exact windowsPrefix_server hs ht hname hmark hrest hnext
  | device hs ht hc hu hstart hname hrest =>
    exact windowsPrefix_of_device hs ht hc hu hstart hname hrest
  | noDevice hs ht hc hu hstart hrest =>
    exact windowsPrefix_of_noDevice hs ht hc hu hstart hrest
  | verbatimDrive hletter hrest => exact windowsPrefix_of_verbatimDrive hletter hrest
  | verbatim hname hunc hdrive hrest => exact windowsPrefix_of_verbatim hname hunc hdrive hrest
  | noVerbatim hrest => exact windowsPrefix_of_noVerbatim hrest
  | verbatimShare hword hserver hname hrest =>
    exact windowsPrefix_of_verbatimShare hword hserver hname hrest
  | verbatimServer hword hname hrest hnext =>
    exact windowsPrefix_of_verbatimServer hword hname hrest hnext
  | noServer hword hrest hnext hthird =>
    exact windowsPrefix_of_noServer hword hrest hnext hthird

/-! ### Every path has a shape -/

/-- A text is cut before its first separator. -/
theorem exists_cut (sep : UInt8 → Bool) (p : Bytes) :
    ∃ w rest, p = w ++ rest ∧ (∀ c ∈ w, sep c = false) ∧ Ends sep rest := by
  refine ⟨p.takeWhile (!sep ·), p.dropWhile (!sep ·), List.takeWhile_append_dropWhile.symm,
    fun c hc => by simpa using List.mem_takeWhile_imp hc, fun c hc => ?_⟩
  have hnot := List.head?_dropWhile_not (!sep ·) p
  rw [Option.mem_def.mp hc] at hnot
  simpa using hnot

theorem Ends.exists_cons (h : Ends isBack (c :: rest)) : c = backslash := by
  simpa [isBack] using h.of_cons

theorem exists_shape_unc (hword : word.map asciiLower = ascii "unc") (hrest : Ends isBack rest) :
    ∃ name rest', verbatimStart ++ word ++ rest = name ++ rest' ∧
      Shape .verbatimUnc name rest' := by
  cases rest with
  | nil => exact ⟨_, _, rfl, .noServer hword Ends.nil Ends.nil Ends.nil⟩
  | cons c r =>
    obtain rfl := hrest.exists_cons
    obtain ⟨server, r', rfl, hserver, hr'⟩ := exists_cut isBack r
    cases r' with
    | nil =>
      by_cases hne : server = []
      · subst hne
        exact ⟨_, _, rfl, .noServer hword hrest Ends.nil Ends.nil⟩
      · have hshape := Shape.verbatimServer hword ⟨hne, hserver⟩ Ends.nil Ends.nil
        exact ⟨_, [], by simp, hshape⟩
    | cons d r' =>
      obtain rfl := hr'.exists_cons
      obtain ⟨name, after, rfl, hname, hafter⟩ := exists_cut isBack r'
      by_cases hne : name = []
      · subst hne
        by_cases hnone : server = []
        · subst hnone
          exact ⟨_, _, rfl, .noServer hword hrest hr' hafter⟩
        · exact ⟨_, _, by simp, .verbatimServer hword ⟨hnone, hserver⟩ hr' hafter⟩
      · exact ⟨_, _, by simp, .verbatimShare hword hserver ⟨hne, hname⟩ hafter⟩

theorem exists_shape_verbatim (rest : Bytes) :
    ∃ kind name rest', verbatimStart ++ rest = name ++ rest' ∧ Shape kind name rest' := by
  obtain ⟨name, after, rfl, hname, hafter⟩ := exists_cut isBack rest
  rw [← List.append_assoc]
  by_cases hunc : name.map asciiLower = ascii "unc"
  · exact ⟨_, exists_shape_unc hunc hafter⟩
  · by_cases hdrive : startsWithDrive name = true ∧ name.length = 2
    · obtain ⟨hstart, hlen⟩ := hdrive
      match name, hlen with
      | [letter, c], _ =>
        rw [startsWithDrive, Bool.and_eq_true, beq_iff_eq] at hstart
        obtain ⟨hletter, rfl⟩ := hstart
        exact ⟨_, _, _, rfl, .verbatimDrive hletter hafter⟩
    · by_cases hne : name = []
      · subst hne
        exact ⟨_, [backslash, backslash, question], _, rfl, .noVerbatim hafter⟩
      · refine ⟨_, _, _, rfl, .verbatim ⟨hne, hname⟩ (fun h => hunc ?_) hdrive hafter⟩
        rw [← List.take_of_length_le (Nat.le_of_eq h.2)]
        exact startsWithUnc_iff.mp h.1

theorem exists_shape_device (h : startsWithDevice p = true) (hstart : ¬ verbatimStart <+: p) :
    ∃ kind name rest, p = name ++ rest ∧ Shape kind name rest := by
  match p, h with
  | s :: t :: c :: u :: r, h =>
    simp only [startsWithDevice, Bool.and_eq_true] at h
    obtain ⟨⟨⟨hs, ht⟩, hc⟩, hu⟩ := h
    have hmark : isDeviceMark [c] = true := by simpa [isDeviceMark] using hc
    have hne : [s, t, c, u] ≠ verbatimStart := fun heq => hstart ⟨r, by rw [← heq]; rfl⟩
    obtain ⟨name, after, rfl, hname, hafter⟩ := exists_cut isSep r
    by_cases hnone : name = []
    · subst hnone
      exact ⟨_, [s, t, c], _, rfl, .noDevice hs ht hmark hu hne hafter⟩
    · exact ⟨_, _, _, by simp, .device hs ht hmark hu hne ⟨hnone, hname⟩ hafter⟩

theorem exists_shape_server (h : startsWithServer p = true) (hdevice : startsWithDevice p = false) :
    ∃ kind name rest, p = name ++ rest ∧ Shape kind name rest := by
  match p, h with
  | s :: t :: c :: r, h =>
    simp only [startsWithServer, Bool.and_eq_true, Bool.not_eq_true'] at h
    obtain ⟨⟨hs, ht⟩, hc⟩ := h
    obtain ⟨server, after, hcut, hserver, hafter⟩ := exists_cut isSep (c :: r)
    have hne : server ≠ [] := by
      rintro rfl
      rw [List.nil_append] at hcut
      rw [← hcut] at hafter
      exact absurd (hafter.of_cons) (by simp [hc])
    have hp : s :: t :: c :: r = [s, t] ++ server ++ after := by
      rw [hcut]
      simp
    rw [hp]
    -- a mark with a separator behind it would be a device
    have hmark : isDeviceMark server = true → after = [] := by
      intro hm
      cases after with
      | nil => rfl
      | cons u after =>
        rw [isDeviceMark, Bool.or_eq_true, beq_iff_eq, beq_iff_eq] at hm
        rw [hp] at hdevice
        obtain rfl | rfl := hm
        · have hdef : startsWithDevice ([s, t] ++ [period] ++ u :: after) =
              (isSep s && isSep t && true && isSep u) := rfl
          rw [hdef, hs, ht, hafter.of_cons] at hdevice
          cases hdevice
        · have hdef : startsWithDevice ([s, t] ++ [question] ++ u :: after) =
              (isSep s && isSep t && true && isSep u) := rfl
          rw [hdef, hs, ht, hafter.of_cons] at hdevice
          cases hdevice
    cases after with
    | nil => exact ⟨_, _, _, rfl, .server hs ht ⟨hne, hserver⟩ (fun _ => rfl) Ends.nil Ends.nil⟩
    | cons u after =>
      have hno : isDeviceMark server = false := by
        cases hm : isDeviceMark server with
        | false => rfl
        | true => cases hmark hm
      obtain ⟨name, rest, rfl, hname, hrest⟩ := exists_cut isSep after
      by_cases hnone : name = []
      · subst hnone
        exact ⟨_, _, _, rfl, .server hs ht ⟨hne, hserver⟩ hmark hafter hrest⟩
      · exact ⟨_, _, _, by simp,
          .share hs ht hafter.of_cons ⟨hne, hserver⟩ ⟨hnone, hname⟩ hno hrest⟩

/-- Every path has a shape. -/
theorem exists_shape (p : Bytes) : ∃ kind name rest, p = name ++ rest ∧ Shape kind name rest := by
  by_cases hstart : verbatimStart <+: p
  · obtain ⟨r, rfl⟩ := hstart
    exact exists_shape_verbatim r
  · cases hdevice : startsWithDevice p with
    | true => exact exists_shape_device hdevice hstart
    | false =>
      cases hserver : startsWithServer p with
      | true => exact exists_shape_server hserver hdevice
      | false =>
        cases hdrive : startsWithDrive p with
        | false => exact ⟨_, [], p, rfl, .none hserver hdrive⟩
        | true =>
          match p, hdrive with
          | letter :: c :: r, hdrive =>
            rw [startsWithDrive, Bool.and_eq_true, beq_iff_eq] at hdrive
            obtain ⟨hletter, rfl⟩ := hdrive
            exact ⟨_, [letter, colon], r, rfl, .drive hletter⟩

/-- No trimming loop of `windows_prefix` passes the start of the path. -/
theorem windowsPrefix_isSome (p : Bytes) : (windowsPrefix p).isSome = true := by
  obtain ⟨kind, name, rest, rfl, hshape⟩ := exists_shape p
  rw [hshape.windowsPrefix]
  rfl

/-- The root of a path of a shape. -/
theorem Shape.root {name rest : Bytes} (h : Shape kind name rest) :
    root (name ++ rest) .windows =
      { kind := kind, name := name, directory := rest.takeWhile (separates .windows kind) } := by
  rw [Path.root, h.windowsPrefix, Option.getD_some, List.drop_left]

/-- A path has the shape of its root. -/
theorem shape_root (p : Bytes) :
    ∃ rest, p = (root p .windows).name ++ rest ∧
      Shape (root p .windows).kind (root p .windows).name rest := by
  obtain ⟨kind, name, rest, rfl, hshape⟩ := exists_shape p
  rw [hshape.root]
  exact ⟨rest, rfl, hshape⟩

end Kotatsu.Fs.Path
