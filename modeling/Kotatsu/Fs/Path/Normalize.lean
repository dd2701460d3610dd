import Kotatsu.Core.Overwrite
import Kotatsu.Fs.Path.Lexical

/-!
# Paths written over themselves

`normalize` keeps views of the names that stay and writes them over the path they view,
from its start on. What has been written never reaches the first name that is still to be
copied, so each copy reads the path as it was, and the result is the root and the names of
the lexical reading with one separator between them.
-/

namespace Kotatsu.Fs.Path

open Kotatsu.Core

/-! ## The names that are kept -/

/-- The loop of `normalize` over the components; the name kept last is the first. -/
def keepName (p : Bytes) (mode : DotDot) (climbsStop : Bool) (kept : List Span) (s : Span) :
    List Span :=
  if s.text p = dot then kept
  else if s.text p = dotDot ∧ mode = .fold then
    match kept with
    | last :: rest => if last.text p ≠ dotDot then rest else if climbsStop then kept else s :: kept
    | [] => if climbsStop then [] else [s]
  else s :: kept

/-- The views that `normalize` keeps, in order. -/
def keptSpans (p : Bytes) (mode : DotDot) (style : Style) : List Span :=
  ((spans p style).foldl (keepName p mode (rooted (root p style))) []).reverse

/-! ## The text written -/

/-- The characters of the buffer, and how many have been written. -/
structure Writer where
  chars : Bytes
  length : Nat
deriving DecidableEq, Repr

namespace Writer

/-- `chars[length++] = c`; none where that is outside of the buffer. -/
def put (w : Writer) (c : UInt8) : Option Writer :=
  (writeAt w.chars w.length [c]).map fun chars => { chars := chars, length := w.length + 1 }

/-- The `memmove` of a name within the buffer. -/
def copy (w : Writer) (s : Span) : Option Writer :=
  (writeAt w.chars w.length (s.text w.chars)).map fun chars =>
    { chars := chars, length := w.length + s.size }

/-- The separator before the name with a number. -/
def separate (w : Writer) (sep : UInt8) (i : Nat) : Option Writer :=
  if i ≠ 0 then w.put sep else some w

end Writer

/-- A character of the root's name, as it is written. -/
def respell (kind : Prefix) (style : Style) (sep c : UInt8) : UInt8 :=
  if !isVerbatim kind && isSeparator c style then sep else c

/-- The loop over the root's name, which is a view of the buffer: `n` characters from the
one at `i`. -/
def writeName (kind : Prefix) (style : Style) (sep : UInt8) : Nat → Nat → Writer → Option Writer
  | 0, _, w => some w
  | n + 1, i, w =>
    match w.chars[i]? with
    | none => none
    | some c =>
      match w.put (respell kind style sep c) with
      | none => none
      | some w' => writeName kind style sep n (i + 1) w'

/-- What is written of the root. -/
def writeRoot (p : Bytes) (r : Root) (style : Style) (sep : UInt8) : Option Writer :=
  match writeName r.kind style sep r.name.length 0 { chars := p, length := 0 } with
  | none => none
  | some w => if r.directory.isEmpty then some w else w.put sep

/-- The loop over the names that are kept, from the one with number `i` on. -/
def writeKept (sep : UInt8) (i : Nat) (kept : List Span) (w : Writer) : Option Writer :=
  match kept with
  | [] => some w
  | s :: rest =>
    match w.separate sep i with
    | none => none
    | some w' =>
      match w'.copy s with
      | none => none
      | some w'' => writeKept sep (i + 1) rest w''

/-- `normalize`: the path it leaves in the buffer, none where it writes outside of it. -/
def normalize (p : Bytes) (mode : DotDot) (style : Style) : Option Bytes :=
  if p.isEmpty then some []
  else
    let r := root p style
    let sep := separatorOf p r style slash
    match writeRoot p r style sep with
    | none => none
    | some w =>
      match writeKept sep 0 (keptSpans p mode style) w with
      | none => none
      | some w => if w.length = 0 then some dot else some (w.chars.take w.length)

/-! ## The kept names are the reading -/

variable {p : Bytes} {mode : DotDot} {style : Style}

variable {kept ss : List Span} {low : Nat} {s : Span} {look : UInt8 → Bool}

/-- The names on the stack spell the place the loop has reached. -/
theorem map_text_keepName_fold (climbsStop : Bool) {here : Place} (hhere : here.Direct climbsStop)
    (h : kept.map (Span.text p) = here.spelling.reverse) (s : Span) :
    (keepName p .fold climbsStop kept s).map (Span.text p) =
      (here.enter climbsStop (s.text p)).spelling.reverse := by
  rw [keepName.eq_def, Place.enter]
  split
  · exact h
  · next hd =>
    by_cases hdd : s.text p = dotDot
    · rw [if_pos ⟨hdd, rfl⟩, if_pos hdd]
      rcases List.eq_nil_or_concat here.names with hnil | ⟨names, last, hlast⟩
      · -- nothing but climbs on the stack
        rw [if_pos hnil]
        have hspell : kept.map (Span.text p) = List.replicate here.climbs dotDot := by
          rw [h, Place.spelling, hnil, List.append_nil, List.reverse_replicate]
        cases kept with
        | nil =>
          have hzero : here.climbs = 0 := by
            simpa using (congrArg List.length hspell).symm
          cases climbsStop with
          | true => simpa [Place.spelling, hnil] using hzero
          | false => simp [Place.spelling, hnil, hzero, hdd]
        | cons top rest =>
          have hmem : top.text p ∈ List.replicate here.climbs dotDot := by
            rw [← hspell]
            exact List.mem_cons_self
          have htop : top.text p = dotDot := List.eq_of_mem_replicate hmem
          dsimp only
          rw [if_neg (by simpa using htop)]
          cases climbsStop with
          | true => exact h
          | false =>
            rw [if_neg Bool.false_ne_true, if_neg Bool.false_ne_true, List.map_cons, hdd, hspell,
              Place.spelling, hnil, List.append_nil, List.reverse_replicate, List.replicate_succ]
      · have hne : here.names ≠ [] := by
          rw [hlast]
          simp
        rw [if_neg hne]
        have hspell : kept.map (Span.text p) =
            last :: (names.reverse ++ List.replicate here.climbs dotDot) := by
          rw [h, Place.spelling, hlast]
          simp
        cases kept with
        | nil => cases hspell
        | cons top rest =>
          obtain ⟨htop, hrest⟩ := List.cons.inj hspell
          have hplain : top.text p ≠ dotDot := by
            rw [htop]
            rintro rfl
            exact hhere.dotDot (by rw [hlast]; simp)
          dsimp only
          rw [if_pos hplain, hrest, Place.spelling, hlast]
          simp
    · rw [if_neg fun hand => hdd hand.1, if_neg hdd, List.map_cons, h, Place.spelling,
        Place.spelling, ← List.append_assoc, List.reverse_concat']

theorem map_text_foldl_fold (climbsStop : Bool) {here : Place} (hhere : here.Direct climbsStop)
    (h : kept.map (Span.text p) = here.spelling.reverse) (ss : List Span) :
    (ss.foldl (keepName p .fold climbsStop) kept).map (Span.text p) =
      ((ss.map (Span.text p)).foldl (Place.enter climbsStop) here).spelling.reverse := by
  induction ss generalizing kept here with
  | nil => exact h
  | cons s ss ih =>
    exact ih (hhere.enter _) (map_text_keepName_fold climbsStop hhere h s)

theorem map_text_foldl_keep (climbsStop : Bool) (kept ss : List Span) :
    (ss.foldl (keepName p .keep climbsStop) kept).map (Span.text p) =
      ((ss.map (Span.text p)).filter (· ≠ dot)).reverse ++ kept.map (Span.text p) := by
  induction ss generalizing kept with
  | nil => rfl
  | cons s ss ih =>
    rw [List.foldl_cons, ih, keepName.eq_def]
    by_cases hd : s.text p = dot
    · rw [if_pos hd, List.map_cons, List.filter_cons_of_neg (by simpa using hd)]
    · rw [if_neg hd, if_neg (by simp), List.map_cons, List.map_cons,
        List.filter_cons_of_pos (by simpa using hd), List.reverse_cons, List.append_assoc]
      rfl

/-- The texts of the kept views are the names of the path as it is read. -/
theorem map_text_keptSpans (p : Bytes) (mode : DotDot) (style : Style) :
    (keptSpans p mode style).map (Span.text p) =
      lexical mode (rooted (root p style)) (components p style) := by
  rw [keptSpans, List.map_reverse]
  cases mode with
  | fold =>
    rw [map_text_foldl_fold _ (Place.direct_start _) rfl, List.reverse_reverse]
    rfl
  | keep =>
    rw [map_text_foldl_keep, List.map_nil, List.append_nil, List.reverse_reverse]
    rfl

/-- The loop keeps some of the views, in their order. -/
theorem sublist_foldl_keepName (mode : DotDot) (climbsStop : Bool) (kept ss : List Span) :
    (ss.foldl (keepName p mode climbsStop) kept).reverse.Sublist (kept.reverse ++ ss) := by
  induction ss generalizing kept with
  | nil => rw [List.append_nil]; exact List.Sublist.refl _
  | cons s ss ih =>
    refine (ih _).trans ?_
    have hstep : (keepName p mode climbsStop kept s).Sublist (s :: kept) := by
      rw [keepName.eq_def]
      split
      · exact List.sublist_cons_self s kept
      · split
        · cases kept with
          | nil =>
            dsimp only
            split
            · exact List.nil_sublist _
            · exact List.Sublist.refl _
          | cons top rest =>
            dsimp only
            split
            · exact (List.sublist_cons_self top rest).trans (List.sublist_cons_self s _)
            · split
              · exact List.sublist_cons_self s _
              · exact List.Sublist.refl _
        · exact List.Sublist.refl _
    have happ := hstep.reverse.append (List.Sublist.refl ss)
    rwa [List.reverse_cons, List.append_assoc] at happ

theorem InOrder.sublist {sep : UInt8 → Bool} {ss ss' : List Span} (h : InOrder p sep low ss)
    (hsub : ss'.Sublist ss) : InOrder p sep low ss' := by
  induction hsub generalizing low with
  | slnil => trivial
  | cons s _ ih =>
    refine ih (h.2.2.2.2.mono ?_)
    have := h.1
    have := h.2.1
    omega
  | cons_cons s _ ih => exact ⟨h.1, h.2.1, h.2.2.1, h.2.2.2.1, ih h.2.2.2.2⟩

theorem keptSpans_inOrder (p : Bytes) (mode : DotDot) (style : Style) :
    InOrder p (separates style (root p style).kind) (rootEnd (root p style))
      (keptSpans p mode style) :=
  (spans_inOrder p style).sublist
    (sublist_foldl_keepName mode (rooted (root p style)) [] (spans p style))

/-! ### What has been written -/

/-- The writer when `text` has been written over the start of `p`. -/
def Writer.of (p text : Bytes) : Writer :=
  { chars := text ++ p.drop text.length, length := text.length }

namespace Writer

variable {p text : Bytes} {i : Nat}

theorem length_chars_of (h : text.length ≤ p.length) : (of p text).chars.length = p.length := by
  rw [of, List.length_append, List.length_drop]
  omega

theorem overwrite_of {data : Bytes} (h : text.length + data.length ≤ p.length) :
    overwrite (text ++ p.drop text.length) text.length data =
      (text ++ data) ++ p.drop (text ++ data).length := by
  have hlen : (p.drop text.length).length = p.length - text.length := List.length_drop
  have hcut : p.drop text.length =
      (p.drop text.length).take data.length ++ p.drop (text ++ data).length := by
    rw [List.length_append, ← List.drop_drop, List.take_append_drop]
  conv_lhs => rw [hcut]
  rw [overwrite_middle, List.append_assoc]
  rw [List.length_take, hlen]
  omega

theorem writeAt_of (data : Bytes) (h : text.length + data.length ≤ p.length) :
    writeAt (of p text).chars text.length data = some (of p (text ++ data)).chars := by
  have hle : (of p text).chars.length = p.length := length_chars_of (by omega)
  rw [writeAt_of_le (by rw [hle]; exact h), of, overwrite_of h, of]

theorem put_of (h : text.length < p.length) (c : UInt8) :
    (of p text).put c = some (of p (text ++ [c])) := by
  have hwrite := writeAt_of [c] (show text.length + [c].length ≤ p.length from h)
  rw [put, show (of p text).length = text.length from rfl, hwrite]
  simp only [of, Option.map_some, List.length_append, List.length_singleton]

/-- What is not yet written over reads as it was. -/
theorem text_of (h : text.length ≤ s.start) : s.text (of p text).chars = s.text p := by
  rw [Span.text, Span.text, substr, substr, of, List.drop_append, List.drop_drop,
    List.drop_eq_nil_of_le h, List.nil_append, Nat.add_sub_cancel' h]

theorem length_text (hle : s.start ≤ s.stop) (hstop : s.stop ≤ p.length) :
    (s.text p).length = s.size := by
  rw [Span.text, length_substr, Span.size]
  omega

theorem copy_of (h : text.length ≤ s.start) (hle : s.start ≤ s.stop) (hstop : s.stop ≤ p.length) :
    (of p text).copy s = some (of p (text ++ s.text p)) := by
  have hlen := length_text (p := p) hle hstop
  have hsize : s.size = s.stop - s.start := rfl
  have hwrite := writeAt_of (s.text p) (show text.length + (s.text p).length ≤ p.length by omega)
  rw [copy, text_of h, show (of p text).length = text.length from rfl, hwrite]
  simp only [of, Option.map_some, List.length_append, hlen]

theorem getElem?_of (h : i ≤ p.length) {text : Bytes} (hlen : text.length = i) :
    (of p text).chars[i]? = p[i]? := by
  subst hlen
  rw [of, List.getElem?_append_right (Nat.le_refl _), List.getElem?_drop, Nat.sub_self,
    Nat.add_zero]

theorem separate_of {sep : UInt8} {i : Nat} (h : i ≠ 0 → text.length < p.length) :
    (of p text).separate sep i = some (of p (text ++ if i ≠ 0 then [sep] else [])) := by
  rw [separate]
  split
  · next hi => exact put_of (h hi) sep
  · rw [List.append_nil]

end Writer

/-- The root's name is written in place, character by character. -/
theorem writeName_of (kind : Prefix) (style : Style) (sep : UInt8) (text name rest : Bytes)
    (hp : p = text ++ (name ++ rest)) (done : Bytes) (hdone : done.length = text.length) :
    writeName kind style sep name.length text.length (.of p done) =
      some (.of p (done ++ name.map (respell kind style sep))) := by
  induction name generalizing text done with
  | nil => rw [List.map_nil, List.append_nil]; rfl
  | cons c name ih =>
    have hget : (Writer.of p done).chars[text.length]? = some c := by
      rw [Writer.getElem?_of (by rw [hp, List.length_append]; omega) hdone, hp,
        List.getElem?_append_right (Nat.le_refl _), Nat.sub_self]
      rfl
    have hlt : done.length < p.length := by
      rw [hp, hdone, List.length_append, List.length_append, List.length_cons]
      omega
    have hrest := ih (text ++ [c]) (by rw [hp, List.append_assoc]; rfl)
      (done ++ [respell kind style sep c]) (by simp [hdone])
    rw [List.length_append, List.length_singleton] at hrest
    rw [List.length_cons, writeName, hget]
    dsimp only
    rw [Writer.put_of hlt]
    dsimp only
    rw [hrest, List.map_cons, List.append_assoc]
    rfl

/-- The text of the root, as it is written. -/
def rootText (r : Root) (style : Style) (sep : UInt8) : Bytes :=
  r.name.map (respell r.kind style sep) ++ if r.directory.isEmpty then [] else [sep]

theorem length_rootText_le (r : Root) (style : Style) (sep : UInt8) :
    (rootText r style sep).length ≤ rootEnd r := by
  rw [rootText, rootEnd, List.length_append, List.length_map]
  split
  · simp
  · next hne =>
    have hpos := List.length_pos_iff.mpr (show r.directory ≠ [] by simpa using hne)
    rw [List.length_singleton]
    omega

theorem writeRoot_eq (p : Bytes) (style : Style) (sep : UInt8) :
    writeRoot p (root p style) style sep = some (.of p (rootText (root p style) style sep)) := by
  obtain ⟨rest, hp⟩ := name_prefix p style
  have hname := writeName_of (root p style).kind style sep [] (root p style).name rest
    hp.symm [] rfl
  rw [List.nil_append] at hname
  have hle := rootEnd_le p style
  rw [writeRoot, show ({ chars := p, length := 0 } : Writer) = .of p [] from rfl,
    show (0 : Nat) = ([] : Bytes).length from rfl, hname, rootText]
  dsimp only
  split
  · rw [List.append_nil]
  · next hne =>
    have hpos := List.length_pos_iff.mpr
      (show (root p style).directory ≠ [] by simpa using hne)
    refine Writer.put_of ?_ sep
    rw [List.length_map]
    simp only [rootEnd] at hle
    omega

/-- The names that stay are written behind the text, each before the place it is read from. -/
theorem writeKept_of (sep : UInt8) (text : Bytes) (i : Nat) (hkept : InOrder p look low kept)
    (hlow : text.length + (if i ≠ 0 then 1 else 0) ≤ low) :
    writeKept sep i kept (.of p text) =
      some (.of p (text ++ ((kept.map (Span.text p)).zipIdx i).flatMap fun x =>
        (if x.2 ≠ 0 then [sep] else []) ++ x.1)) := by
  induction kept generalizing text low i with
  | nil => simp [writeKept]
  | cons s rest ih =>
    obtain ⟨hs, hsize, hstop, -, hrest⟩ := hkept
    have hsep : (Writer.of p text).separate sep i =
        some (.of p (text ++ if i ≠ 0 then [sep] else [])) := by
      refine Writer.separate_of fun hi => ?_
      rw [if_pos hi] at hlow
      omega
    have hlen : (text ++ if i ≠ 0 then [sep] else []).length ≤ s.start := by
      rw [List.length_append]
      split
      · next hi =>
        rw [if_pos hi] at hlow
        rw [List.length_singleton]
        omega
      · rw [List.length_nil]
        omega
    have hcopy := Writer.copy_of (p := p) hlen (Nat.le_of_lt hsize) hstop
    have hlow' : ((text ++ if i ≠ 0 then [sep] else []) ++ s.text p).length + 1 ≤ s.stop + 1 := by
      rw [List.length_append, Writer.length_text (Nat.le_of_lt hsize) hstop, Span.size]
      omega
    rw [writeKept, hsep]
    dsimp only
    rw [hcopy]
    dsimp only
    rw [ih _ (i + 1) hrest (by rw [if_pos (Nat.succ_ne_zero i)]; exact hlow'), List.map_cons,
      List.zipIdx_cons, List.flatMap_cons]
    simp only [List.append_assoc]

theorem flatMap_zipIdx_succ (sep : UInt8) (ws : List Bytes) (i : Nat) :
    ((ws.zipIdx (i + 1)).flatMap fun x => (if x.2 ≠ 0 then [sep] else []) ++ x.1) =
      ws.flatMap (sep :: ·) := by
  induction ws generalizing i with
  | nil => rfl
  | cons w ws ih =>
    rw [List.zipIdx_cons, List.flatMap_cons, List.flatMap_cons, ih, if_pos (Nat.succ_ne_zero i)]
    rfl

theorem intercalate_cons (sep : UInt8) (w : Bytes) (ws : List Bytes) :
    [sep].intercalate (w :: ws) = w ++ ws.flatMap (sep :: ·) := by
  induction ws generalizing w with
  | nil => rw [List.intercalate_singleton, List.flatMap_nil, List.append_nil]
  | cons v ws ih =>
    rw [List.intercalate_cons_cons, ih, List.flatMap_cons]
    simp

theorem intercalate_concat (sep : UInt8) {ws : List Bytes} (hne : ws ≠ []) (w : Bytes) :
    [sep].intercalate (ws ++ [w]) = [sep].intercalate ws ++ sep :: w := by
  obtain ⟨v, ws, rfl⟩ := List.exists_cons_of_ne_nil hne
  rw [List.cons_append, intercalate_cons, intercalate_cons, List.flatMap_append,
    List.append_assoc]
  simp

/-- The names are joined by the separator. -/
theorem flatMap_zipIdx (sep : UInt8) (ws : List Bytes) :
    (ws.zipIdx.flatMap fun x => (if x.2 ≠ 0 then [sep] else []) ++ x.1) =
      [sep].intercalate ws := by
  cases ws with
  | nil => rfl
  | cons w ws =>
    rw [List.zipIdx_cons, List.flatMap_cons, flatMap_zipIdx_succ, intercalate_cons]
    rfl

/-- The path that a root and names spell. -/
def spelled (r : Root) (style : Style) (sep : UInt8) (names : List Bytes) : Bytes :=
  rootText r style sep ++ [sep].intercalate names

/-- The separator that `normalize` writes. -/
def sepOf (p : Bytes) (style : Style) : UInt8 := separatorOf p (root p style) style slash

/-- The names that `normalize` leaves. -/
def reading (p : Bytes) (mode : DotDot) (style : Style) : List Bytes :=
  lexical mode (rooted (root p style)) (components p style)

/-- What `normalize` leaves in the buffer: the root and the names of the reading, or `.`
where that is no text. -/
theorem normalize_eq (hp : p ≠ []) (mode : DotDot) (style : Style) :
    normalize p mode style =
      some (if spelled (root p style) style (sepOf p style) (reading p mode style) = [] then dot
        else spelled (root p style) style (sepOf p style) (reading p mode style)) := by
  have hnot : p.isEmpty = false := by simpa using hp
  have hkept := writeKept_of (sepOf p style) (rootText (root p style) style (sepOf p style)) 0
    (keptSpans_inOrder p mode style)
    (length_rootText_le (root p style) style (sepOf p style))
  rw [map_text_keptSpans, flatMap_zipIdx] at hkept
  have hsep : separatorOf p (root p style) style slash = sepOf p style := rfl
  rw [normalize, hnot, if_neg Bool.false_ne_true]
  dsimp only
  rw [hsep, writeRoot_eq]
  dsimp only
  rw [hkept]
  dsimp only
  have htext : rootText (root p style) style (sepOf p style) ++
      [sepOf p style].intercalate
        (lexical mode (rooted (root p style)) (components p style)) =
      spelled (root p style) style (sepOf p style) (reading p mode style) := rfl
  rw [htext]
  by_cases hnil : spelled (root p style) style (sepOf p style) (reading p mode style) = []
  · rw [if_pos hnil, hnil]
    rfl
  · rw [if_neg hnil, if_neg (by simpa [Writer.of] using hnil), Writer.of, List.take_left]

/-- Names in order and the separators between them fit where they stand. -/
theorem InOrder.length_le (sep : UInt8) (h : InOrder p look low ss) (hlow : low ≤ p.length) :
    low + ([sep].intercalate (ss.map (Span.text p))).length ≤ p.length := by
  induction ss generalizing low with
  | nil => exact hlow
  | cons s rest ih =>
    obtain ⟨hs, hsize, hstop, -, hrest⟩ := h
    have hlen := Writer.length_text (p := p) (Nat.le_of_lt hsize) hstop
    rw [Span.size] at hlen
    cases rest with
    | nil =>
      rw [List.map_cons, List.map_nil, List.intercalate_singleton, hlen]
      omega
    | cons t rest =>
      have hnext := hrest.2.2.1
      have hbound := ih hrest (by have := hrest.1; have := hrest.2.1; omega)
      rw [List.map_cons, List.map_cons, List.intercalate_cons_cons, List.length_append,
        List.length_append, hlen, List.length_singleton]
      rw [List.map_cons] at hbound
      omega

/-- The names before another in order, each with a separator, fit before it. -/
theorem InOrder.length_before (sep : UInt8) {before after : List Span}
    (h : InOrder p look low (before ++ s :: after)) :
    low + ([sep].intercalate (before.map (Span.text p))).length +
      (if before.length ≠ 0 then 1 else 0) ≤ s.start := by
  induction before generalizing low with
  | nil => exact h.1
  | cons t before ih =>
    obtain ⟨hs, hsize, hstop, -, hrest⟩ := h
    have hlen := Writer.length_text (p := p) (Nat.le_of_lt hsize) hstop
    rw [Span.size] at hlen
    have hbound := ih hrest
    rw [if_pos (by simp)]
    cases before with
    | nil =>
      rw [if_neg (by simp)] at hbound
      rw [List.map_cons, List.map_nil, List.intercalate_singleton, hlen]
      simp only [List.map_nil, List.intercalate_nil, List.length_nil] at hbound
      omega
    | cons u before =>
      rw [if_pos (by simp)] at hbound
      rw [List.map_cons, List.map_cons, List.intercalate_cons_cons, List.length_append,
        List.length_append, hlen, List.length_singleton]
      rw [List.map_cons] at hbound
      omega

/-- The writer when `normalize` comes to copy the name behind those in `before`. -/
def writtenBefore (p : Bytes) (style : Style) (before : List Span) : Option Writer :=
  ((writeRoot p (root p style) style (sepOf p style)).bind
    (writeKept (sepOf p style) 0 before)).bind (·.separate (sepOf p style) before.length)

theorem InOrder.le_start (h : InOrder p look low ss) (hs : s ∈ ss) : low ≤ s.start := by
  induction ss generalizing low with
  | nil => cases hs
  | cons t ss ih =>
    obtain rfl | hs := List.mem_cons.mp hs
    · exact h.1
    · have hlater := ih h.2.2.2.2 hs
      have hfirst := h.1
      have hsize := h.2.1
      omega

/-- When a name is copied, the text written ends before it, and it and the names behind it
still read as they did. -/
theorem writtenBefore_spec {before after : List Span}
    (h : keptSpans p mode style = before ++ s :: after) :
    ∃ w, writtenBefore p style before = some w ∧ w.length ≤ s.start ∧
      ∀ t ∈ s :: after, t.text w.chars = t.text p := by
  have horder := keptSpans_inOrder p mode style
  rw [h] at horder
  have hroot := length_rootText_le (root p style) style (sepOf p style)
  have hkept := writeKept_of (sepOf p style) _ 0
    (horder.sublist (List.sublist_append_left before (s :: after))) hroot
  rw [flatMap_zipIdx] at hkept
  have hbefore := horder.length_before (sepOf p style)
  let text := rootText (root p style) style (sepOf p style) ++
    [sepOf p style].intercalate (before.map (Span.text p))
  have hlen : text.length + (if before.length ≠ 0 then 1 else 0) ≤ s.start := by
    simp only [text, List.length_append]
    omega
  have hs : InOrder p (separates style (root p style).kind) 0 (s :: after) :=
    (horder.sublist (List.sublist_append_right before (s :: after))).mono (Nat.zero_le _)
  have hsep : (Writer.of p text).separate (sepOf p style) before.length =
      some (.of p (text ++ if before.length ≠ 0 then [sepOf p style] else [])) := by
    refine Writer.separate_of fun hi => ?_
    rw [if_pos hi] at hlen
    have := hs.2.1
    have := hs.2.2.1
    omega
  have hle : (text ++ if before.length ≠ 0 then [sepOf p style] else []).length ≤ s.start := by
    rw [List.length_append]
    split
    · next hi =>
      rw [if_pos hi] at hlen
      exact hlen
    · rw [List.length_nil]
      omega
  refine ⟨_, ?_, hle, fun t ht => Writer.text_of ?_⟩
  · rw [writtenBefore, writeRoot_eq, Option.bind_some, hkept, Option.bind_some]
    exact hsep
  · obtain rfl | ht := List.mem_cons.mp ht
    · exact hle
    · refine hle.trans ?_
      have hstart := hs.2.1
      have hlater := hs.2.2.2.2.le_start ht
      omega

end Kotatsu.Fs.Path
