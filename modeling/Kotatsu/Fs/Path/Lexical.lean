import Kotatsu.Fs.Path.Components

/-!
# What a path says

A path read name by name, without asking the file system: `.` stays where it is, `..`
leaves the last directory entered, and where there is none it climbs, unless the path
starts at a root. Two paths whose readings are equal name the same place. Where a `..` is
to be kept, since the name before it may be a link, only `.` says nothing.
-/

namespace Kotatsu.Fs.Path

open Kotatsu.Core

/-- `DotDot`. -/
inductive DotDot where
  | fold
  | keep
deriving DecidableEq, Repr

/-- Where a path leads: some climbs, then the names of directories. -/
@[ext] structure Place where
  climbs : Nat
  names : List Bytes
deriving DecidableEq

namespace Place

/-- The place a path starts from. -/
def start : Place := { climbs := 0, names := [] }

/-- One name further. -/
def enter (atRoot : Bool) (here : Place) (name : Bytes) : Place :=
  if name = dot then here
  else if name = dotDot then
    if here.names = [] then
      if atRoot then here else { here with climbs := here.climbs + 1 }
    else { here with names := here.names.dropLast }
  else { here with names := here.names ++ [name] }

/-- The names that lead to a place. -/
def spelling (here : Place) : List Bytes := List.replicate here.climbs dotDot ++ here.names

/-- A place that is spelled without detours. -/
structure Direct (atRoot : Bool) (here : Place) : Prop where
  dot : dot ∉ here.names
  dotDot : dotDot ∉ here.names
  climbs : atRoot = true → here.climbs = 0

end Place

/-- Where a list of names leads. -/
def place (atRoot : Bool) (names : List Bytes) : Place := names.foldl (Place.enter atRoot) .start

/-- The names of a path as it is read lexically. -/
def lexical (mode : DotDot) (atRoot : Bool) (names : List Bytes) : List Bytes :=
  match mode with
  | .fold => (place atRoot names).spelling
  | .keep => names.filter (· ≠ dot)

theorem dot_ne_dotDot : dot ≠ dotDot := by decide

namespace Place

variable {atRoot : Bool} {here : Place} {name : Bytes}

@[simp] theorem enter_dot (atRoot : Bool) (here : Place) : enter atRoot here dot = here :=
  if_pos rfl

theorem enter_name (hd : name ≠ dot) (hdd : name ≠ dotDot) :
    enter atRoot here name = { here with names := here.names ++ [name] } := by
  rw [enter, if_neg hd, if_neg hdd]

/-- A `..` behind a name takes it away. -/
theorem enter_dotDot_append (atRoot : Bool) (here : Place) (name : Bytes) :
    enter atRoot { here with names := here.names ++ [name] } dotDot = here := by
  rw [enter, if_neg dot_ne_dotDot.symm, if_pos rfl, if_neg (by simp)]
  simp

theorem direct_start (atRoot : Bool) : Direct atRoot start where
  dot := List.not_mem_nil
  dotDot := List.not_mem_nil
  climbs := fun _ => rfl

/-- A step keeps a spelling direct. -/
theorem Direct.enter (h : Direct atRoot here) (name : Bytes) :
    Direct atRoot (enter atRoot here name) := by
  rw [Place.enter]
  split
  · exact h
  · next hd =>
    split
    · split
      · cases atRoot with
        | false => exact ⟨h.dot, h.dotDot, fun hr => by cases hr⟩
        | true => exact h
      · exact ⟨fun hm => h.dot (List.mem_of_mem_dropLast hm),
          fun hm => h.dotDot (List.mem_of_mem_dropLast hm), h.climbs⟩
    · next hdd =>
      refine ⟨fun hm => ?_, fun hm => ?_, h.climbs⟩
      · obtain hm | hm := List.mem_append.mp hm
        · exact h.dot hm
        · exact hd (List.mem_singleton.mp hm).symm
      · obtain hm | hm := List.mem_append.mp hm
        · exact h.dotDot hm
        · exact hdd (List.mem_singleton.mp hm).symm

theorem Direct.foldl (h : Direct atRoot here) (names : List Bytes) :
    Direct atRoot (names.foldl (Place.enter atRoot) here) := by
  induction names generalizing here with
  | nil => exact h
  | cons name names ih => exact ih (h.enter name)

/-- Plain names are entered one below the other. -/
theorem foldl_names (names : List Bytes) (hd : Path.dot ∉ names) (hdd : Path.dotDot ∉ names) :
    names.foldl (Place.enter atRoot) here = { here with names := here.names ++ names } := by
  induction names generalizing here with
  | nil => rw [List.foldl_nil, List.append_nil]
  | cons name names ih =>
    rw [List.mem_cons, not_or] at hd hdd
    rw [List.foldl_cons, enter_name (Ne.symm hd.1) (Ne.symm hdd.1), ih hd.2 hdd.2,
      List.append_assoc]
    rfl

/-- Climbs that nothing stops. -/
theorem foldl_climbs (n : Nat) (here : Place) (hnames : here.names = []) :
    (List.replicate n Path.dotDot).foldl (Place.enter false) here =
      { here with climbs := here.climbs + n } := by
  induction n generalizing here with
  | zero => rfl
  | succ n ih =>
    have hstep : Place.enter false here Path.dotDot =
        { here with climbs := here.climbs + 1 } := by
      rw [Place.enter, if_neg dot_ne_dotDot.symm, if_pos rfl, if_pos hnames]
      rfl
    have hrest := ih { here with climbs := here.climbs + 1 } hnames
    rw [List.replicate_succ, List.foldl_cons, hstep, hrest]
    exact Place.ext (by dsimp only; omega) rfl

/-- A direct spelling leads where it says. -/
theorem Direct.place_spelling (h : Direct atRoot here) : place atRoot here.spelling = here := by
  have hclimb : (List.replicate here.climbs Path.dotDot).foldl (Place.enter atRoot) start =
      { climbs := here.climbs, names := [] } := by
    cases hr : atRoot with
    | false =>
      rw [foldl_climbs _ _ rfl, start, Nat.zero_add]
    | true =>
      rw [h.climbs hr]
      rfl
  rw [place, spelling, List.foldl_append, hclimb, foldl_names _ h.dot h.dotDot, List.nil_append]

/-- As many climbs as names were entered lead back. -/
theorem foldl_climb_back (atRoot : Bool) (here : Place) (names : List Bytes)
    (hdd : Path.dotDot ∉ names) :
    (List.replicate (names.filter (· ≠ Path.dot)).length Path.dotDot).foldl (Place.enter atRoot)
      (names.foldl (Place.enter atRoot) here) = here := by
  induction names generalizing here with
  | nil => rfl
  | cons name names ih =>
    rw [List.mem_cons, not_or] at hdd
    by_cases hd : name = Path.dot
    · rw [List.filter_cons_of_neg (by simpa using hd), List.foldl_cons, hd, enter_dot]
      exact ih here hdd.2
    · rw [List.filter_cons_of_pos (by simpa using hd), List.length_cons, List.replicate_succ',
        List.foldl_append, List.foldl_cons, List.foldl_cons, List.foldl_nil, ih _ hdd.2,
        enter_name hd (Ne.symm hdd.1)]
      exact enter_dotDot_append atRoot here name

/-- A step brings no name but its own. -/
theorem mem_spelling_enter {x : Bytes} (h : x ∈ (enter atRoot here name).spelling) :
    x ∈ here.spelling ∨ x = name := by
  rw [enter] at h
  split at h
  · exact .inl h
  · split at h
    · next hdd =>
      split at h
      · split at h
        · exact .inl h
        · obtain hx | hx := List.mem_append.mp h
          · exact .inr ((List.eq_of_mem_replicate hx).trans hdd.symm)
          · exact .inl (List.mem_append_right _ hx)
      · obtain hx | hx := List.mem_append.mp h
        · exact .inl (List.mem_append_left _ hx)
        · exact .inl (List.mem_append_right _ (List.mem_of_mem_dropLast hx))
    · rw [spelling, ← List.append_assoc, List.mem_append] at h
      exact h.imp id List.mem_singleton.mp

theorem mem_spelling_foldl {x : Bytes} {names : List Bytes}
    (h : x ∈ (names.foldl (enter atRoot) here).spelling) : x ∈ here.spelling ∨ x ∈ names := by
  induction names generalizing here with
  | nil => exact .inl h
  | cons name names ih =>
    obtain hx | hx := ih h
    · obtain hx | rfl := mem_spelling_enter hx
      · exact .inl hx
      · exact .inr List.mem_cons_self
    · exact .inr (List.mem_cons_of_mem _ hx)

end Place

theorem direct_place (atRoot : Bool) (names : List Bytes) :
    (place atRoot names).Direct atRoot := (Place.direct_start atRoot).foldl names

theorem place_append (atRoot : Bool) (names names' : List Bytes) :
    place atRoot (names ++ names') = names'.foldl (Place.enter atRoot) (place atRoot names) :=
  List.foldl_append

/-- Read again, the names of a reading are themselves. -/
theorem lexical_lexical (mode : DotDot) (atRoot : Bool) (names : List Bytes) :
    lexical mode atRoot (lexical mode atRoot names) = lexical mode atRoot names := by
  cases mode with
  | fold =>
    rw [lexical, lexical]
    exact congrArg Place.spelling (direct_place atRoot names).place_spelling
  | keep =>
    rw [lexical, lexical, List.filter_filter]
    simp

/-- A reading has no `.` in it. -/
theorem dot_notMem_lexical (mode : DotDot) (atRoot : Bool) (names : List Bytes) :
    dot ∉ lexical mode atRoot names := by
  cases mode with
  | fold =>
    intro hm
    obtain hm | hm := List.mem_append.mp hm
    · exact dot_ne_dotDot (List.eq_of_mem_replicate hm)
    · exact (direct_place atRoot names).dot hm
  | keep => simp [lexical]

/-- What is read is one of the names. -/
theorem mem_of_mem_lexical {mode : DotDot} {atRoot : Bool} {names : List Bytes} {name : Bytes}
    (h : name ∈ lexical mode atRoot names) : name ∈ names := by
  cases mode with
  | keep => exact List.mem_of_mem_filter h
  | fold =>
    obtain hm | hm := Place.mem_spelling_foldl h
    · cases hm
    · exact hm

end Kotatsu.Fs.Path
