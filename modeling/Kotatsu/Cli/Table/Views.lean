import Kotatsu.Core.SplitOn
import Kotatsu.Cli.Table.Option

/-!
# Views into an argv

A value of a parsed argument is a view. A view says where its text stands: in an element
of the argv, in the buffer a group of short options is read through, or in the arguments
of an alias. `Args` is the argv with one element read through the buffer instead.
-/

namespace Kotatsu.Cli.Table

open Kotatsu.Core

/-- What the characters of a view are part of. -/
inductive Buffer where
  /-- An element of the argv. -/
  | element (i : Nat)
  /-- `ParseIter::group_buf`. -/
  | group
  /-- The arguments of the alias with this number. -/
  | aliasArgs (id : Nat)
  /-- A string literal of the parser. -/
  | literal
deriving DecidableEq, Repr

/-- A `std::string_view`. -/
structure View where
  buffer : Buffer
  start : Nat
  text : Bytes
deriving DecidableEq, Repr

namespace View

/-- The view `v.substr(n)`. -/
def drop (n : Nat) (v : View) : View := ⟨v.buffer, v.start + n, v.text.drop n⟩

/-- The view's text stands in `content` where the view says. -/
def Within (content : Bytes) (v : View) : Prop :=
  v.start ≤ content.length ∧ v.text <+: content.drop v.start

/-- Views of parts that stand one separator apart, from `start` on. -/
def parts (buffer : Buffer) (start : Nat) : List Bytes → List View
  | [] => []
  | p :: ps => ⟨buffer, start, p⟩ :: parts buffer (start + p.length + 1) ps

/-- `std::views::split`. -/
def split (separator : UInt8) (v : View) : List View :=
  parts v.buffer v.start (v.text.splitOn separator)

@[simp] theorem text_drop (n : Nat) (v : View) : (v.drop n).text = v.text.drop n := rfl

@[simp] theorem start_drop (n : Nat) (v : View) : (v.drop n).start = v.start + n := rfl

/-- What follows the first `n` bytes of a content is in it. -/
theorem within_drop {v : View} {n : Nat} (hstart : v.start = 0) (h : n ≤ v.text.length) :
    (v.drop n).Within v.text := by
  refine ⟨?_, ?_⟩
  · rw [start_drop, hstart]
    omega
  · rw [text_drop, start_drop, hstart, Nat.zero_add]

theorem texts_parts (buffer : Buffer) (start : Nat) (ps : List Bytes) :
    (parts buffer start ps).map text = ps := by
  induction ps generalizing start with
  | nil => rfl
  | cons p ps ih => rw [parts, List.map_cons, ih]

/-- The texts between the separators. -/
theorem texts_split (separator : UInt8) (v : View) :
    (v.split separator).map text = v.text.splitOn separator :=
  texts_parts _ _ _

/-- The parts of a view are views of the same content, and none begins before it. -/
theorem of_mem_parts {content text : Bytes} {buffer : Buffer} {start : Nat} {separator : UInt8}
    (hv : (⟨buffer, start, text⟩ : View).Within content) {w : View}
    (hw : w ∈ parts buffer start (text.splitOn separator)) :
    w.buffer = buffer ∧ start ≤ w.start ∧ w.Within content := by
  induction text using splitOn_induction (a := separator) generalizing start with
  | last text hnot =>
    rw [List.splitOn_eq_singleton hnot] at hw
    obtain rfl := List.mem_singleton.mp hw
    exact ⟨rfl, le_rfl, hv⟩
  | cons front back hfront ih =>
    have hstart : start ≤ content.length := hv.1
    obtain ⟨rest, hrest⟩ : (front ++ separator :: back) <+: content.drop start := hv.2
    have hcontent : content.drop start = front ++ separator :: (back ++ rest) := by
      rw [← hrest, List.append_assoc, List.cons_append]
    rw [List.splitOn_append_cons_self_of_not_mem hfront, parts, List.mem_cons] at hw
    obtain rfl | hw := hw
    · exact ⟨rfl, le_rfl, hstart, separator :: (back ++ rest), hcontent.symm⟩
    · have hdrop : content.drop (start + front.length + 1) = back ++ rest := by
        rw [Nat.add_assoc, ← List.drop_drop, hcontent, List.drop_length_add_append]
        rfl
      have hlength := congrArg List.length hcontent
      simp only [List.length_drop, List.length_append, List.length_cons] at hlength
      have hback : (⟨buffer, start + front.length + 1, back⟩ : View).Within content := by
        refine ⟨?_, rest, hdrop.symm⟩
        show start + front.length + 1 ≤ content.length
        omega
      obtain ⟨hbuffer, hle, hwithin⟩ := ih hback hw
      exact ⟨hbuffer, by omega, hwithin⟩

end View

/-! ## The argv -/

/-- `Args`. -/
structure Args where
  list : List Bytes
  overlayIndex : Nat := 2 ^ 32 - 1
  overlay : Bytes := []

namespace Args

/-- `Args::operator[]`. -/
def at' (args : Args) (index : Nat) : View :=
  if index = args.overlayIndex then ⟨.group, 0, args.overlay⟩
  else ⟨.element index, 0, args.list.getD index []⟩

/-- `Args::size`. -/
def size (args : Args) : Nat := u32 args.list.length

/-- The elements a `while(index < args.size()) args[index++]` reads. -/
def onward (args : Args) (index : Nat) : List View :=
  (List.range' index (args.size - index)).map args.at'

@[simp] theorem start_at' (args : Args) (index : Nat) : (args.at' index).start = 0 := by
  unfold at'
  split <;> rfl

/-- A view of what an element says, part of what is read between two elements. The element
the reading begins with is never viewed from its first byte on. -/
def Takes (args : Args) (low high : Nat) (v : View) : Prop :=
  ∃ j, low ≤ j ∧ j < high ∧ v.buffer = (args.at' j).buffer ∧
    v.Within (args.at' j).text ∧ (j = low → 0 < v.start)

/-- An element after the first. -/
theorem takes_at' {args : Args} {low high j : Nat} (hlow : low < j) (hhigh : j < high) :
    args.Takes low high (args.at' j) := by
  refine ⟨j, by omega, hhigh, rfl, ?_, fun h => ?_⟩
  · refine ⟨?_, ?_⟩
    · rw [start_at']
      exact Nat.zero_le _
    · rw [start_at', List.drop_zero]
  · omega

/-- What follows a name in the first element. -/
theorem takes_drop {args : Args} {low high n : Nat} (hhigh : low < high) (hn : 0 < n)
    (hle : n ≤ (args.at' low).text.length) : args.Takes low high ((args.at' low).drop n) := by
  refine ⟨low, le_rfl, hhigh, rfl, View.within_drop (start_at' _ _) hle, fun _ => ?_⟩
  rw [View.start_drop]
  omega

theorem Takes.mono {args : Args} {low high high' : Nat} {v : View} (h : args.Takes low high v)
    (hle : high ≤ high') : args.Takes low high' v := by
  obtain ⟨j, hlow, hlt, rest⟩ := h
  exact ⟨j, hlow, by omega, rest⟩

/-- The elements after the first. -/
theorem takes_onward {args : Args} {low index : Nat} {v : View} (hlow : low < index)
    (hv : v ∈ args.onward index) : args.Takes low args.size v := by
  obtain ⟨j, hj, rfl⟩ := List.mem_map.mp hv
  rw [List.mem_range'_1] at hj
  exact takes_at' (by omega) (by omega)

/-- Two argvs of one size that say the same from an element on. -/
structure Agree (a b : Args) (index : Nat) : Prop where
  size_eq : a.size = b.size
  text_eq : ∀ j, index ≤ j → (a.at' j).text = (b.at' j).text

theorem Agree.mono {a b : Args} {i j : Nat} (h : Agree a b i) (hle : i ≤ j) : Agree a b j :=
  ⟨h.size_eq, fun k hk => h.text_eq k (by omega)⟩

theorem Agree.texts_onward {a b : Args} {index : Nat} (h : Agree a b index) :
    (a.onward index).map View.text = (b.onward index).map View.text := by
  rw [onward, onward, h.size_eq, List.map_map, List.map_map]
  refine List.map_congr_left fun j hj => ?_
  rw [List.mem_range'_1] at hj
  exact h.text_eq j hj.1

end Args

/-! ## Parsed arguments -/

/-- `ParsedArg`. -/
structure ParsedArg where
  id : Nat := 0
  index : Nat := 0
  nextIndex : Nat := 0
  spelling : Bytes := []
  values : List View := []
deriving DecidableEq, Repr

/-- What there is to see of an argument, wherever its values stand. -/
structure Seen where
  id : Nat
  index : Nat
  nextIndex : Nat
  spelling : Bytes
  values : List Bytes
deriving DecidableEq, Repr

def ParsedArg.seen (out : ParsedArg) : Seen :=
  ⟨out.id, out.index, out.nextIndex, out.spelling, out.values.map View.text⟩

end Kotatsu.Cli.Table
