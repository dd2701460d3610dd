import Mathlib.Data.List.Infix
import Mathlib.Logic.Relation

/-!
# The grammar of JSON

RFC 8259, over any alphabet whose characters have codes: a rule relates an input to
what is left after the text it describes, so that rules compose as relations do.
`Reads` adds how deeply a value nests and, for an object, its own members, each
with the input at its value and after it. The grammar of bytes and that of Unicode
characters are instances, and an encoding that keeps ASCII and writes every other
character outside it carries each rule of the one to the other's.
-/

namespace Kotatsu.Core.Json

open Relation

section Grammar

variable {α : Type} (code : α → Nat)

/-! ## Characters -/

/-- One character, whose code satisfies `p`. -/
inductive One (p : Nat → Prop) : List α → List α → Prop where
  | intro {a : α} {s : List α} (h : p (code a)) : One p (a :: s) s

/-- The characters of a word, by their codes. -/
def Word : List Nat → List α → List α → Prop
  | [] => Eq
  | n :: w => Comp (One code (· = n)) (Word w)

def IsSpace (n : Nat) : Prop := n = 0x20 ∨ n = 0x09 ∨ n = 0x0A ∨ n = 0x0D

def IsDigit (n : Nat) : Prop := 0x30 ≤ n ∧ n ≤ 0x39

/-- A digit other than zero. -/
def IsLeading (n : Nat) : Prop := 0x31 ≤ n ∧ n ≤ 0x39

def IsHex (n : Nat) : Prop := IsDigit n ∨ 0x41 ≤ n ∧ n ≤ 0x46 ∨ 0x61 ≤ n ∧ n ≤ 0x66

/-- What a string holds as it is. -/
def IsPlain (n : Nat) : Prop := 0x20 ≤ n ∧ n ≠ 0x22 ∧ n ≠ 0x5C

/-- What follows a backslash alone: `"`, `\`, `/`, `b`, `f`, `n`, `r` or `t`. -/
def IsEscaped (n : Nat) : Prop :=
  n = 0x22 ∨ n = 0x5C ∨ n = 0x2F ∨ n = 0x62 ∨ n = 0x66 ∨ n = 0x6E ∨ n = 0x72 ∨ n = 0x74

/-! ## Scalars -/

def Space : List α → List α → Prop := ReflTransGen (One code IsSpace)

def Digits : List α → List α → Prop := TransGen (One code IsDigit)

/-- `0`, or digits that do not begin with it. -/
def Int : List α → List α → Prop := fun s t =>
  One code (· = 0x30) s t ∨ Comp (One code IsLeading) (ReflTransGen (One code IsDigit)) s t

def Frac : List α → List α → Prop := Comp (One code (· = 0x2E)) (Digits code)

def Exp : List α → List α → Prop :=
  Comp (One code fun n => n = 0x65 ∨ n = 0x45)
    (Comp (ReflGen (One code fun n => n = 0x2B ∨ n = 0x2D)) (Digits code))

def Number : List α → List α → Prop :=
  Comp (ReflGen (One code (· = 0x2D)))
    (Comp (Int code) (Comp (ReflGen (Frac code)) (ReflGen (Exp code))))

/-- An escape sequence. -/
def Escape : List α → List α → Prop :=
  Comp (One code (· = 0x5C)) fun s t =>
    One code IsEscaped s t ∨
    Comp (One code (· = 0x75)) (Comp (One code IsHex) (Comp (One code IsHex)
      (Comp (One code IsHex) (One code IsHex)))) s t

/-- What stands between the quotes of a string. -/
def Chars : List α → List α → Prop :=
  ReflTransGen fun s t => One code IsPlain s t ∨ Escape code s t

def Str : List α → List α → Prop :=
  Comp (One code (· = 0x22)) (Comp (Chars code) (One code (· = 0x22)))

/-- `true`, `false` or `null`. -/
def Literal (s t : List α) : Prop :=
  Word code [0x74, 0x72, 0x75, 0x65] s t ∨ Word code [0x66, 0x61, 0x6C, 0x73, 0x65] s t ∨
    Word code [0x6E, 0x75, 0x6C, 0x6C] s t

/-- A value that is no array and no object. -/
def Scalar (s t : List α) : Prop := Literal code s t ∨ Number code s t ∨ Str code s t

/-! ## Values -/

/-- A member of an object: its key, quotes included, and the input at its value and after it. -/
structure Member (α : Type) where
  key : List α
  value : List α
  rest : List α

inductive Nonterminal where
  | value
  | elements
  | members

/-- What an input begins with, how deeply that nests, and the members of an object. The
elements and the members are those of an array or an object that is not empty, with the space
around them. -/
inductive Reads : Nonterminal → List α → List α → Nat → List (Member α) → Prop where
  | scalar {s t : List α} (h : Scalar code s t) : Reads .value s t 0 []
  | emptyArray {s t : List α}
      (h : Comp (One code (· = 0x5B)) (Comp (Space code) (One code (· = 0x5D))) s t) :
      Reads .value s t 1 []
  | emptyObject {s t : List α}
      (h : Comp (One code (· = 0x7B)) (Comp (Space code) (One code (· = 0x7D))) s t) :
      Reads .value s t 1 []
  | array {s a b t : List α} {d : Nat} {ms : List (Member α)} (hopen : One code (· = 0x5B) s a)
      (h : Reads .elements a b d ms) (hclose : One code (· = 0x5D) b t) :
      Reads .value s t (d + 1) []
  | object {s a b t : List α} {d : Nat} {ms : List (Member α)} (hopen : One code (· = 0x7B) s a)
      (h : Reads .members a b d ms) (hclose : One code (· = 0x7D) b t) :
      Reads .value s t (d + 1) ms
  | element {s a b t : List α} {d : Nat} {ms : List (Member α)} (hbefore : Space code s a)
      (h : Reads .value a b d ms) (hafter : Space code b t) : Reads .elements s t d []
  | elements {s a b c c' t : List α} {d e : Nat} {ms ns : List (Member α)}
      (hbefore : Space code s a) (h : Reads .value a b d ms) (hafter : Space code b c)
      (hcomma : One code (· = 0x2C) c c') (hrest : Reads .elements c' t e ns) :
      Reads .elements s t (max d e) []
  | member {s k k' c c' a b t : List α} {d : Nat} {ms : List (Member α)}
      (hkey : Space code s k) (hstr : Str code k k') (hspace : Space code k' c)
      (hcolon : One code (· = 0x3A) c c') (hbefore : Space code c' a)
      (h : Reads .value a b d ms) (hafter : Space code b t) :
      Reads .members s t d [⟨k.take (k.length - k'.length), a, b⟩]
  | members {s k k' c c' a b e e' t : List α} {d d' : Nat} {ms ns : List (Member α)}
      (hkey : Space code s k) (hstr : Str code k k') (hspace : Space code k' c)
      (hcolon : One code (· = 0x3A) c c') (hbefore : Space code c' a)
      (h : Reads .value a b d ms) (hafter : Space code b e) (hcomma : One code (· = 0x2C) e e')
      (hrest : Reads .members e' t d' ns) :
      Reads .members s t (max d d') (⟨k.take (k.length - k'.length), a, b⟩ :: ns)

/-- A JSON text, how deeply it nests and the members of the object that it is. -/
def Text (s : List α) (d : Nat) (ms : List (Member α)) : Prop :=
  ∃ a b, Space code s a ∧ Reads code .value a b d ms ∧ Space code b []

end Grammar

/-! ## Keys -/

/-- A hexadecimal digit. -/
def hexDigit (c : Char) : Option Nat :=
  if '0' ≤ c ∧ c ≤ '9' then some (c.toNat - 0x30)
  else if 'a' ≤ c ∧ c ≤ 'f' then some (c.toNat - 0x57)
  else if 'A' ≤ c ∧ c ≤ 'F' then some (c.toNat - 0x37)
  else none

/-- The code unit that four hexadecimal digits spell. -/
def codeUnit (a b c d : Char) : Option Nat := do
  return 0x1000 * (← hexDigit a) + 0x100 * (← hexDigit b) + 0x10 * (← hexDigit c) + (← hexDigit d)

/-- The character that a letter after a backslash stands for. -/
def escapedChar (c : Char) : Option Char :=
  [('"', '"'), ('\\', '\\'), ('/', '/'), ('b', '\x08'), ('f', '\x0c'), ('n', '\n'), ('r', '\r'),
    ('t', '\t')].lookup c

/-- What stands for a text between quotes, when it stands for characters: a surrogate only does
as half of a pair. -/
def unescape : List Char → Option (List Char)
  | [] => some []
  | '\\' :: 'u' :: a :: b :: c :: d :: s =>
    match codeUnit a b c d with
    | none => none
    | some u =>
      if u < 0xD800 ∨ 0xE000 ≤ u then (unescape s).map (Char.ofNat u :: ·)
      else
        match s with
        | '\\' :: 'u' :: a' :: b' :: c' :: d' :: s =>
          match codeUnit a' b' c' d' with
          | none => none
          | some v =>
            if u < 0xDC00 ∧ 0xDC00 ≤ v ∧ v < 0xE000 then
              (unescape s).map (Char.ofNat (0x10000 + 0x400 * (u - 0xD800) + (v - 0xDC00)) :: ·)
            else none
        | _ => none
  | '\\' :: e :: s =>
    match escapedChar e with
    | none => none
    | some c => (unescape s).map (c :: ·)
  | c :: s => (unescape s).map (c :: ·)

/-- The name of a key, which is written with its quotes. -/
def keyName (key : List Char) : Option (List Char) := unescape (key.drop 1).dropLast

/-! ## What a rule takes -/

section Takes

variable {α : Type} {code : α → Nat} {m n : Nat} {r r' : List α → List α → Prop} {s t : List α}

/-- A rule leaves an end of its input, at least `n` characters shorter. -/
def Takes (n : Nat) (r : List α → List α → Prop) : Prop :=
  ∀ ⦃s t⦄, r s t → t <:+ s ∧ t.length + n ≤ s.length

theorem Takes.mono (h : Takes n r) (hle : m ≤ n) : Takes m r := fun _ _ hr =>
  ⟨(h hr).1, (Nat.add_le_add_left hle _).trans (h hr).2⟩

theorem Takes.one {p : Nat → Prop} : Takes 1 (One code p) := by
  rintro _ _ ⟨_⟩
  exact ⟨List.suffix_cons _ _, Nat.le_refl _⟩

theorem Takes.comp (h : Takes m r) (h' : Takes n r') : Takes (m + n) (Comp r r') := by
  rintro s t ⟨u, hr, hr'⟩
  obtain ⟨hu, hum⟩ := h hr
  obtain ⟨ht, htn⟩ := h' hr'
  exact ⟨ht.trans hu, by omega⟩

theorem Takes.or (h : Takes n r) (h' : Takes n r') : Takes n fun s t => r s t ∨ r' s t := by
  rintro s t (hr | hr)
  · exact h hr
  · exact h' hr

theorem Takes.opt (h : Takes n r) : Takes 0 (ReflGen r) := by
  rintro s t (_ | hr)
  · exact ⟨List.suffix_rfl, Nat.le_refl _⟩
  · exact h.mono (Nat.zero_le n) hr

theorem Takes.star (h : Takes n r) : Takes 0 (ReflTransGen r) := by
  intro s t hr
  induction hr with
  | refl => exact ⟨List.suffix_rfl, Nat.le_refl _⟩
  | tail _ hstep ih =>
    obtain ⟨hsuffix, hlen⟩ := h hstep
    exact ⟨hsuffix.trans ih.1, by omega⟩

theorem Takes.plus (h : Takes n r) : Takes n (TransGen r) := by
  intro s t hr
  obtain ⟨u, hstep, hrest⟩ := TransGen.head'_iff.mp hr
  obtain ⟨hu, hlen⟩ := h hstep
  obtain ⟨ht, hle⟩ := h.star hrest
  exact ⟨ht.trans hu, by omega⟩

theorem Takes.word (w : List Nat) : Takes w.length (Word code w) := by
  induction w with
  | nil =>
    rintro s t rfl
    exact ⟨List.suffix_rfl, Nat.le_refl _⟩
  | cons n w ih =>
    rw [List.length_cons, Nat.add_comm]
    exact Takes.one.comp ih

theorem Takes.space : Takes 0 (Space code) := Takes.one.star

theorem Takes.number : Takes 1 (Number code) := by
  have hdigits : Takes 1 (Digits code) := Takes.one.plus
  have hint : Takes 1 (Int code) :=
    Takes.one.or ((Takes.one.comp Takes.one.star).mono (Nat.le_refl _))
  have hfrac : Takes 2 (Frac code) := Takes.one.comp hdigits
  have hexp : Takes 2 (Exp code) :=
    (Takes.one.comp (Takes.one.opt.comp hdigits)).mono (Nat.le_refl _)
  exact (Takes.one.opt.comp (hint.comp (hfrac.opt.comp hexp.opt))).mono (Nat.le_refl _)

theorem Takes.chars : Takes 0 (Chars code) := by
  have hescape : Takes 1 (Escape code) :=
    (Takes.one.comp (Takes.one.or ((Takes.one.comp (Takes.one.comp (Takes.one.comp
      (Takes.one.comp Takes.one)))).mono (by decide)))).mono (by decide)
  exact (Takes.one.or hescape).star

theorem Takes.str : Takes 2 (Str code) :=
  (Takes.one.comp (Takes.chars.comp Takes.one)).mono (Nat.le_refl _)

theorem Takes.scalar : Takes 1 (Scalar code) := by
  rintro s t ((h | h | h) | h | h)
  · exact (Takes.word _).mono (by decide) h
  · exact (Takes.word _).mono (by decide) h
  · exact (Takes.word _).mono (by decide) h
  · exact Takes.number h
  · exact Takes.str.mono (by decide) h

/-- A rule looks no further than what it takes. -/
def Local (r : List α → List α → Prop) : Prop :=
  ∀ ⦃s t⦄, r s t → ∃ front, s = front ++ t ∧ ∀ u, r (front ++ u) u

theorem Local.one {p : Nat → Prop} : Local (One code p) := by
  rintro _ t ⟨h⟩
  exact ⟨[_], rfl, fun u => .intro h⟩

theorem Local.comp (h : Local r) (h' : Local r') : Local (Comp r r') := by
  rintro s t ⟨u, hr, hr'⟩
  obtain ⟨front, rfl, hfront⟩ := h hr
  obtain ⟨back, rfl, hback⟩ := h' hr'
  refine ⟨front ++ back, (List.append_assoc _ _ _).symm, fun v => ?_⟩
  rw [List.append_assoc]
  exact ⟨back ++ v, hfront _, hback v⟩

theorem Local.or (h : Local r) (h' : Local r') : Local fun s t => r s t ∨ r' s t := by
  rintro s t (hr | hr)
  · obtain ⟨front, rfl, hfront⟩ := h hr
    exact ⟨front, rfl, fun u => .inl (hfront u)⟩
  · obtain ⟨front, rfl, hfront⟩ := h' hr
    exact ⟨front, rfl, fun u => .inr (hfront u)⟩

theorem Local.star (h : Local r) : Local (ReflTransGen r) := by
  intro s t hr
  induction hr using ReflTransGen.head_induction_on with
  | refl => exact ⟨[], rfl, fun _ => .refl⟩
  | head hstep _ ih =>
    obtain ⟨back, rfl, hback⟩ := ih
    obtain ⟨front, rfl, hfront⟩ := h hstep
    refine ⟨front ++ back, (List.append_assoc _ _ _).symm, fun v => ?_⟩
    rw [List.append_assoc]
    exact .head (hfront _) (hback v)

theorem Local.opt (h : Local r) : Local (ReflGen r) := by
  rintro s t (_ | hr)
  · exact ⟨[], rfl, fun _ => .refl⟩
  · obtain ⟨front, rfl, hfront⟩ := h hr
    exact ⟨front, rfl, fun u => .single (hfront u)⟩

theorem Local.plus (h : Local r) : Local (TransGen r) := by
  intro s t hr
  obtain ⟨u, hstep, hrest⟩ := TransGen.head'_iff.mp hr
  obtain ⟨front, rfl, hfront⟩ := h.comp h.star ⟨u, hstep, hrest⟩
  refine ⟨front, rfl, fun v => ?_⟩
  obtain ⟨w, hstep', hrest'⟩ := hfront v
  exact TransGen.head' hstep' hrest'

theorem Local.word (w : List Nat) : Local (Word code w) := by
  induction w with
  | nil =>
    rintro s t rfl
    exact ⟨[], rfl, fun _ => rfl⟩
  | cons n w ih => exact Local.one.comp ih

theorem Local.space : Local (Space code) := Local.one.star

theorem Local.number : Local (Number code) := by
  have hdigits : Local (Digits code) := Local.one.plus
  have hint : Local (Int code) := Local.one.or (Local.one.comp Local.one.star)
  have hfrac : Local (Frac code) := Local.one.comp hdigits
  have hexp : Local (Exp code) := Local.one.comp (Local.one.opt.comp hdigits)
  exact Local.one.opt.comp (hint.comp (hfrac.opt.comp hexp.opt))

theorem Local.str : Local (Str code) := by
  have hescape : Local (Escape code) :=
    Local.one.comp (Local.one.or
      (Local.one.comp (Local.one.comp (Local.one.comp (Local.one.comp Local.one)))))
  exact Local.one.comp ((Local.one.or hescape).star.comp Local.one)

theorem Local.scalar : Local (Scalar code) :=
  ((Local.word _).or ((Local.word _).or (Local.word _))).or (Local.number.or Local.str)

/-- What follows a rule's text may go on. -/
theorem Local.append (h : Local r) (hr : r s t) (u : List α) : r (s ++ u) (t ++ u) := by
  obtain ⟨front, rfl, hfront⟩ := h hr
  rw [List.append_assoc]
  exact hfront _

/-- What follows a value may go on. -/
theorem Reads.append {p : Nonterminal} {d : Nat} {ms : List (Member α)}
    (h : Reads code p s t d ms) (u : List α) :
    ∃ ms', Reads code p (s ++ u) (t ++ u) d ms' := by
  induction h with
  | scalar h => exact ⟨_, .scalar (Local.scalar.append h u)⟩
  | emptyArray h =>
    exact ⟨_, .emptyArray ((Local.one.comp (Local.space.comp Local.one)).append h u)⟩
  | emptyObject h =>
    exact ⟨_, .emptyObject ((Local.one.comp (Local.space.comp Local.one)).append h u)⟩
  | array hopen _ hclose ih =>
    obtain ⟨_, ih⟩ := ih
    exact ⟨_, .array (Local.one.append hopen u) ih (Local.one.append hclose u)⟩
  | object hopen _ hclose ih =>
    obtain ⟨_, ih⟩ := ih
    exact ⟨_, .object (Local.one.append hopen u) ih (Local.one.append hclose u)⟩
  | element hbefore _ hafter ih =>
    obtain ⟨_, ih⟩ := ih
    exact ⟨_, .element (Local.space.append hbefore u) ih (Local.space.append hafter u)⟩
  | elements hbefore _ hafter hcomma _ ih ihrest =>
    obtain ⟨_, ih⟩ := ih
    obtain ⟨_, ihrest⟩ := ihrest
    exact ⟨_, .elements (Local.space.append hbefore u) ih (Local.space.append hafter u)
      (Local.one.append hcomma u) ihrest⟩
  | member hkey hstr hspace hcolon hbefore _ hafter ih =>
    obtain ⟨_, ih⟩ := ih
    exact ⟨_, .member (Local.space.append hkey u) (Local.str.append hstr u)
      (Local.space.append hspace u) (Local.one.append hcolon u) (Local.space.append hbefore u) ih
      (Local.space.append hafter u)⟩
  | members hkey hstr hspace hcolon hbefore _ hafter hcomma _ ih ihrest =>
    obtain ⟨_, ih⟩ := ih
    obtain ⟨_, ihrest⟩ := ihrest
    exact ⟨_, .members (Local.space.append hkey u) (Local.str.append hstr u)
      (Local.space.append hspace u) (Local.one.append hcolon u) (Local.space.append hbefore u) ih
      (Local.space.append hafter u) (Local.one.append hcomma u) ihrest⟩

/-- What follows a text that is JSON may go on. -/
theorem Text.append {text : List α} {d : Nat} {ms : List (Member α)}
    (h : Text code text d ms) (rest : List α) :
    ∃ a b ms', Space code (text ++ rest) a ∧ Reads code .value a b d ms' ∧
      Space code b rest := by
  obtain ⟨a, b, ha, hreads, hb⟩ := h
  obtain ⟨ms', hreads'⟩ := hreads.append rest
  exact ⟨a ++ rest, b ++ rest, ms', Local.space.append ha rest, hreads',
    Local.space.append hb rest⟩

theorem Text.scalar {text : List α} (h : Scalar code text []) :
    Text code text 0 [] :=
  ⟨text, [], .refl, .scalar h, .refl⟩

/-- The text of a string. -/
theorem str_take (h : Str code s t) : Str code (s.take (s.length - t.length)) [] := by
  obtain ⟨front, rfl, hfront⟩ := Local.str h
  rw [List.length_append, Nat.add_sub_cancel, List.take_left]
  simpa only [List.append_nil] using hfront []

/-- What the members of an object say of the input. -/
structure Placed (code : α → Nat) (s t : List α) (m : Member α) : Prop where
  key : Str code m.key []
  value : m.value <:+ s
  nonempty : m.rest.length < m.value.length
  rest : t.length ≤ m.rest.length
  reads : ∃ d ns, Reads code .value m.value m.rest d ns

theorem Placed.extend {s' t' : List α} {x : Member α} (h : Placed code s t x) (hs : s <:+ s')
    (ht : t'.length ≤ t.length) : Placed code s' t' x :=
  ⟨h.key, h.value.trans hs, h.nonempty, ht.trans h.rest, h.reads⟩

/-- Elements have no members. -/
theorem Reads.elements_nil {d : Nat} {ms : List (Member α)} (h : Reads code .elements s t d ms) :
    ms = [] := by
  cases h <;> rfl

/-- Members lie one after the other in what is read. -/
theorem Reads.placed {p : Nonterminal} {d : Nat} {ms : List (Member α)}
    (h : Reads code p s t d ms) : t <:+ s ∧ t.length + 1 ≤ s.length ∧
      (∀ x ∈ ms, Placed code s t x) ∧
      ms.Pairwise fun x y => y.value.length ≤ x.rest.length := by
  induction h with
  | scalar h =>
    obtain ⟨hsuffix, hlen⟩ := Takes.scalar h
    exact ⟨hsuffix, hlen, List.forall_mem_nil _, List.Pairwise.nil⟩
  | emptyArray h =>
    obtain ⟨hsuffix, hlen⟩ := Takes.one.comp (Takes.space.comp Takes.one) h
    exact ⟨hsuffix, by omega, List.forall_mem_nil _, List.Pairwise.nil⟩
  | emptyObject h =>
    obtain ⟨hsuffix, hlen⟩ := Takes.one.comp (Takes.space.comp Takes.one) h
    exact ⟨hsuffix, by omega, List.forall_mem_nil _, List.Pairwise.nil⟩
  | array hopen _ hclose ih =>
    obtain ⟨ha, hal⟩ := Takes.one hopen
    obtain ⟨ht, htl⟩ := Takes.one hclose
    obtain ⟨hb, hbl, -, -⟩ := ih
    exact ⟨ht.trans (hb.trans ha), by omega, List.forall_mem_nil _, List.Pairwise.nil⟩
  | object hopen _ hclose ih =>
    obtain ⟨ha, hal⟩ := Takes.one hopen
    obtain ⟨ht, htl⟩ := Takes.one hclose
    obtain ⟨hb, hbl, hplaced, hpair⟩ := ih
    exact ⟨ht.trans (hb.trans ha), by omega,
      fun x hx => (hplaced x hx).extend ha (by omega), hpair⟩
  | element hbefore _ hafter ih =>
    obtain ⟨ha, hal⟩ := Takes.space hbefore
    obtain ⟨ht, htl⟩ := Takes.space hafter
    obtain ⟨hb, hbl, -, -⟩ := ih
    exact ⟨ht.trans (hb.trans ha), by omega, List.forall_mem_nil _, List.Pairwise.nil⟩
  | elements hbefore _ hafter hcomma _ ih ihrest =>
    obtain ⟨ha, hal⟩ := Takes.space hbefore
    obtain ⟨hc, hcl⟩ := Takes.space hafter
    obtain ⟨hc', hcl'⟩ := Takes.one hcomma
    obtain ⟨hb, hbl, -, -⟩ := ih
    obtain ⟨ht, htl, -, -⟩ := ihrest
    exact ⟨ht.trans (hc'.trans (hc.trans (hb.trans ha))), by omega, List.forall_mem_nil _,
      List.Pairwise.nil⟩
  | member hkey hstr hspace hcolon hbefore h hafter ih =>
    obtain ⟨hk, hkl⟩ := Takes.space hkey
    obtain ⟨hk', hkl'⟩ := Takes.str hstr
    obtain ⟨hc, hcl⟩ := Takes.space hspace
    obtain ⟨hc', hcl'⟩ := Takes.one hcolon
    obtain ⟨ha, hal⟩ := Takes.space hbefore
    obtain ⟨ht, htl⟩ := Takes.space hafter
    obtain ⟨hb, hbl, -, -⟩ := ih
    have has := ha.trans (hc'.trans (hc.trans (hk'.trans hk)))
    refine ⟨ht.trans (hb.trans has), by omega, ?_, List.pairwise_singleton _ _⟩
    intro x hx
    obtain rfl := List.mem_singleton.mp hx
    exact ⟨str_take hstr, has, hbl, by dsimp only; omega, _, _, h⟩
  | members hkey hstr hspace hcolon hbefore h hafter hcomma _ ih ihrest =>
    obtain ⟨hk, hkl⟩ := Takes.space hkey
    obtain ⟨hk', hkl'⟩ := Takes.str hstr
    obtain ⟨hc, hcl⟩ := Takes.space hspace
    obtain ⟨hc', hcl'⟩ := Takes.one hcolon
    obtain ⟨ha, hal⟩ := Takes.space hbefore
    obtain ⟨he, hel⟩ := Takes.space hafter
    obtain ⟨he', hel'⟩ := Takes.one hcomma
    obtain ⟨hb, hbl, -, -⟩ := ih
    obtain ⟨ht, htl, hplaced, hpair⟩ := ihrest
    have has := ha.trans (hc'.trans (hc.trans (hk'.trans hk)))
    have hes := he'.trans (he.trans (hb.trans has))
    refine ⟨ht.trans hes, by omega, ?_, List.pairwise_cons.mpr ⟨?_, hpair⟩⟩
    · intro x hx
      rcases List.mem_cons.mp hx with rfl | hx
      · exact ⟨str_take hstr, has, hbl, by dsimp only; omega, _, _, h⟩
      · exact (hplaced x hx).extend hes (Nat.le_refl _)
    · intro x hx
      have := (hplaced x hx).value.length_le
      dsimp only
      omega

end Takes

end Kotatsu.Core.Json
