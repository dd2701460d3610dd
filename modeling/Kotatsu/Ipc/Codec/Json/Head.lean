import Kotatsu.Ipc.Codec.Json.Check
import Kotatsu.Ipc.Codec.Json.Prefix

/-!
# What the reader of a front finds of JSON

The reader counts brackets and passes over strings, so of a value of the grammar it
reads the value, when something that delimits it follows.
-/

namespace Kotatsu.Ipc.Codec.JsonCodec

open Relation
open Kotatsu.Core Kotatsu.Core.Json
open PrefixReader (isDelimiter)
open Checker (skipSpace_cons skipSpace_value value_head number_head)

/-! ## Passing over characters -/

section Passes

variable {γ : Type} {f : Bytes → γ} {p q : Bytes → Bytes → Prop}

/-- A function of what is left that what a rule takes makes no difference to. -/
def Passes (f : Bytes → γ) (p : Bytes → Bytes → Prop) : Prop := ∀ ⦃s t⦄, p s t → f s = f t

theorem Passes.one {is : Nat → Prop}
    (h : ∀ (c : UInt8) (s : Bytes), is c.toNat → f (c :: s) = f s) :
    Passes f (One UInt8.toNat is) := by
  rintro _ s ⟨hc⟩
  exact h _ s hc

theorem Passes.comp (h : Passes f p) (h' : Passes f q) : Passes f (Comp p q) := by
  rintro s t ⟨u, hp, hq⟩
  exact (h hp).trans (h' hq)

theorem Passes.or (h : Passes f p) (h' : Passes f q) : Passes f fun s t => p s t ∨ q s t := by
  rintro s t (hp | hq)
  · exact h hp
  · exact h' hq

theorem Passes.opt (h : Passes f p) : Passes f (ReflGen p) := by
  rintro s t (_ | hp)
  · rfl
  · exact h hp

theorem Passes.star (h : Passes f p) : Passes f (ReflTransGen p) := by
  intro s t hp
  induction hp with
  | refl => rfl
  | tail _ hstep ih => exact ih.trans (h hstep)

theorem Passes.plus (h : Passes f p) : Passes f (TransGen p) := fun _ _ hp =>
  h.star hp.to_reflTransGen

/-- A character of a number or a word. -/
def IsBare (n : Nat) : Prop :=
  IsDigit n ∨ n = 0x2B ∨ n = 0x2D ∨ n = 0x2E ∨ 0x61 ≤ n ∧ n ≤ 0x7A ∨ n = 0x45

theorem Passes.word (h : ∀ (c : UInt8) (s : Bytes), IsBare c.toNat → f (c :: s) = f s)
    {w : List Nat} (hw : ∀ n ∈ w, IsBare n) : Passes f (Word UInt8.toNat w) := by
  induction w with
  | nil =>
    rintro s t rfl
    rfl
  | cons n w ih =>
    obtain ⟨hn, hw⟩ := List.forall_mem_cons.mp hw
    exact (Passes.one fun c s hc => h c s (by rw [hc]; exact hn)).comp (ih hw)

/-- What passes over their characters passes over words and numbers. -/
theorem Passes.bare (h : ∀ (c : UInt8) (s : Bytes), IsBare c.toNat → f (c :: s) = f s) :
    Passes f fun s t => Literal UInt8.toNat s t ∨ Number UInt8.toNat s t := by
  have hone : ∀ {is : Nat → Prop}, (∀ n, is n → IsBare n) → Passes f (One UInt8.toNat is) :=
    fun his => Passes.one fun c s hc => h c s (his _ hc)
  have hword : ∀ {w : List Nat}, (∀ n ∈ w, 0x61 ≤ n ∧ n ≤ 0x7A) →
      Passes f (Word UInt8.toNat w) := fun hw =>
    Passes.word h fun n hn => .inr (.inr (.inr (.inr (.inl (hw n hn)))))
  have hdigit : Passes f (One UInt8.toNat IsDigit) := hone fun n hn => .inl hn
  have hint : Passes f (Json.Int UInt8.toNat) :=
    (hone fun n hn => .inl (by unfold IsDigit; omega)).or
      ((hone fun n hn => .inl (by unfold IsLeading at hn; unfold IsDigit; omega)).comp hdigit.star)
  have hfrac : Passes f (Frac UInt8.toNat) :=
    (hone fun n hn => by unfold IsBare; omega).comp hdigit.plus
  have hexp : Passes f (Exp UInt8.toNat) :=
    (hone fun n hn => by unfold IsBare; omega).comp
      ((hone fun n hn => by unfold IsBare; omega).opt.comp hdigit.plus)
  exact ((hword (by decide)).or ((hword (by decide)).or (hword (by decide)))).or
    ((hone fun n hn => by unfold IsBare; omega).opt.comp (hint.comp (hfrac.opt.comp hexp.opt)))

end Passes

/-! ## Strings -/

variable {c : UInt8} {s t : Bytes}

theorem afterString_plain (h : c ≠ 0x22) (h' : c ≠ 0x5C) (s : Bytes) :
    afterString (c :: s) = afterString s := by
  rw [afterString_cons h', if_neg h]

theorem afterString_chars : Passes afterString (Chars UInt8.toNat) := by
  have hhex : Passes afterString (One UInt8.toNat IsHex) := by
    refine Passes.one fun c s hc => afterString_plain ?_ ?_ s
    · rintro rfl
      exact absurd hc (by unfold IsHex IsDigit; decide)
    · rintro rfl
      exact absurd hc (by unfold IsHex IsDigit; decide)
  refine Passes.star ?_
  rintro s t (hc | ⟨u, hslash, hescape⟩)
  · obtain ⟨hc⟩ := hc
    refine afterString_plain ?_ ?_ _
    · rintro rfl
      exact hc.2.1 rfl
    · rintro rfl
      exact hc.2.2 rfl
  · obtain rfl := (one_iff (c := 0x5C)).mp hslash
    rcases hescape with hletter | ⟨v, hu, hdigits⟩
    · obtain ⟨-⟩ := hletter
      exact afterString_escape _ _
    · obtain rfl := (one_iff (c := 0x75)).mp hu
      rw [afterString_escape]
      exact (hhex.comp (hhex.comp (hhex.comp hhex))) hdigits

theorem afterString_str (h : Str UInt8.toNat s t) :
    ∃ u, s = 0x22 :: u ∧ afterString u = some t := by
  obtain ⟨u, hopen, v, hchars, hclose⟩ := h
  obtain rfl := (one_iff (c := 0x22)).mp hopen
  obtain rfl := (one_iff (c := 0x22)).mp hclose
  refine ⟨u, rfl, ?_⟩
  rw [afterString_chars hchars, afterString_cons (by decide), if_pos rfl]

theorem readString_str {x s t : Bytes} (hspace : Space UInt8.toNat x s)
    (h : Str UInt8.toNat s t) : readString x = some (taken s t, t) := by
  obtain ⟨u, rfl, hu⟩ := afterString_str h
  rw [readString, skipSpace_cons hspace rfl]
  dsimp only
  rw [if_pos rfl, hu, Option.map_some]

/-! ## Brackets -/

section Brackets

variable {depth : Int} {s t : Bytes}

theorem afterBrackets_skip (h : c ∉ ascii "\"[]\x7b\x7d") (s : Bytes) :
    afterBrackets depth (c :: s) = afterBrackets depth s := by
  have hbytes : ascii "\"[]\x7b\x7d" = [0x22, 0x5B, 0x5D, 0x7B, 0x7D] := by decide
  simp only [hbytes, List.mem_cons, List.not_mem_nil, or_false, not_or] at h
  obtain ⟨hquote, hopen, hclose, hopen', hclose'⟩ := h
  rw [afterBrackets]
  simp only [hquote, hopen, hclose, hopen', hclose', or_self, if_false, false_and]

theorem afterBrackets_bare {q : Nat → Prop}
    (h : ∀ n, q n → n ≠ 0x22 ∧ n ≠ 0x5B ∧ n ≠ 0x5D ∧ n ≠ 0x7B ∧ n ≠ 0x7D) :
    Passes (afterBrackets depth) (One UInt8.toNat q) := by
  refine Passes.one fun c s hc => afterBrackets_skip (fun hmem => ?_) s
  have hbytes : ascii "\"[]\x7b\x7d" = [0x22, 0x5B, 0x5D, 0x7B, 0x7D] := by decide
  simp only [hbytes, List.mem_cons, List.not_mem_nil, or_false] at hmem
  obtain ⟨hquote, hopen, hclose, hopen', hclose'⟩ := h _ hc
  rcases hmem with rfl | rfl | rfl | rfl | rfl
  · exact hquote rfl
  · exact hopen rfl
  · exact hclose rfl
  · exact hopen' rfl
  · exact hclose' rfl

theorem afterBrackets_str : Passes (afterBrackets depth) (Str UInt8.toNat) := by
  intro s t h
  obtain ⟨u, rfl, -⟩ := afterString_str h
  have hread := readString_str .refl h
  rw [afterBrackets, if_pos rfl]
  split
  case h_1 hnone =>
    rw [hnone] at hread
    cases hread
  case h_2 hsome =>
    rw [hsome] at hread
    cases hread
    rfl

theorem afterBrackets_space : Passes (afterBrackets depth) (Space UInt8.toNat) :=
  (afterBrackets_bare fun n hn => by unfold IsSpace at hn; omega).star

theorem afterBrackets_scalar : Passes (afterBrackets depth) (Scalar UInt8.toNat) := by
  have hbare := Passes.bare (f := afterBrackets depth) fun c s hc =>
    afterBrackets_bare (q := IsBare) (fun n hn => by
      unfold IsBare IsDigit at hn
      omega) (.intro hc)
  rintro s t (h | h | h)
  · exact hbare (.inl h)
  · exact hbare (.inr h)
  · exact afterBrackets_str h

theorem afterBrackets_open (h : c = 0x5B ∨ c = 0x7B) (s : Bytes) :
    afterBrackets depth (c :: s) = afterBrackets (depth + 1) s := by
  rw [afterBrackets]
  rcases h with rfl | rfl
  · rw [if_neg (by decide), if_pos (by decide)]
  · rw [if_neg (by decide), if_pos (by decide)]

theorem afterBrackets_close (h : c = 0x5D ∨ c = 0x7D) (s : Bytes) :
    afterBrackets (depth + 1) (c :: s) = if depth = 0 then some s else afterBrackets depth s := by
  have hclose : c = 0x7D ∨ c = 0x5D := h.symm
  have hne : c ≠ 0x22 ∧ ¬(c = 0x7B ∨ c = 0x5B) := by
    rcases h with rfl | rfl
    · decide
    · decide
  rw [afterBrackets, Int.add_sub_cancel, if_neg hne.1, if_neg hne.2]
  simp only [hclose, true_and, if_true]

/-- What the brackets of a value make of the depth. -/
theorem afterBrackets_reads {p : Nonterminal} {d : Nat} {ms : List (Member UInt8)}
    (h : Reads UInt8.toNat p s t d ms) : ∀ {depth : Int}, 0 < depth →
      afterBrackets depth s = afterBrackets depth t := by
  have hcomma : ∀ depth : Int, Passes (afterBrackets depth) (One UInt8.toNat (· = 0x2C)) :=
    fun _ => afterBrackets_bare fun n hn => by omega
  have hcolon : ∀ depth : Int, Passes (afterBrackets depth) (One UInt8.toNat (· = 0x3A)) :=
    fun _ => afterBrackets_bare fun n hn => by omega
  induction h with
  | scalar h => exact fun _ => afterBrackets_scalar h
  | emptyArray h =>
    intro depth hpos
    obtain ⟨a, hopen, b, hspace, hclose⟩ := h
    obtain rfl := (one_iff (c := 0x5B)).mp hopen
    obtain rfl := (one_iff (c := 0x5D)).mp hclose
    rw [afterBrackets_open (.inl rfl), afterBrackets_space hspace, afterBrackets_close (.inl rfl),
      if_neg (by omega)]
  | emptyObject h =>
    intro depth hpos
    obtain ⟨a, hopen, b, hspace, hclose⟩ := h
    obtain rfl := (one_iff (c := 0x7B)).mp hopen
    obtain rfl := (one_iff (c := 0x7D)).mp hclose
    rw [afterBrackets_open (.inr rfl), afterBrackets_space hspace, afterBrackets_close (.inr rfl),
      if_neg (by omega)]
  | array hopen _ hclose ih =>
    intro depth hpos
    obtain rfl := (one_iff (c := 0x5B)).mp hopen
    obtain rfl := (one_iff (c := 0x5D)).mp hclose
    rw [afterBrackets_open (.inl rfl), ih (by omega), afterBrackets_close (.inl rfl),
      if_neg (by omega)]
  | object hopen _ hclose ih =>
    intro depth hpos
    obtain rfl := (one_iff (c := 0x7B)).mp hopen
    obtain rfl := (one_iff (c := 0x7D)).mp hclose
    rw [afterBrackets_open (.inr rfl), ih (by omega), afterBrackets_close (.inr rfl),
      if_neg (by omega)]
  | element hbefore _ hafter ih =>
    exact fun hpos => (afterBrackets_space hbefore).trans
      ((ih hpos).trans (afterBrackets_space hafter))
  | elements hbefore _ hafter hsep _ ih ihrest =>
    exact fun hpos => (afterBrackets_space hbefore).trans ((ih hpos).trans
      ((afterBrackets_space hafter).trans ((hcomma _ hsep).trans (ihrest hpos))))
  | member hkey hstr hspace hsep hbefore _ hafter ih =>
    exact fun hpos => (afterBrackets_space hkey).trans ((afterBrackets_str hstr).trans
      ((afterBrackets_space hspace).trans ((hcolon _ hsep).trans
        ((afterBrackets_space hbefore).trans ((ih hpos).trans (afterBrackets_space hafter))))))
  | members hkey hstr hspace hsep hbefore _ hafter hsep' _ ih ihrest =>
    exact fun hpos => (afterBrackets_space hkey).trans ((afterBrackets_str hstr).trans
      ((afterBrackets_space hspace).trans ((hcolon _ hsep).trans
        ((afterBrackets_space hbefore).trans ((ih hpos).trans
          ((afterBrackets_space hafter).trans ((hcomma _ hsep').trans (ihrest hpos))))))))

end Brackets

/-! ## Values -/

theorem afterScalar_bare (h : Literal UInt8.toNat s t ∨ Number UInt8.toNat s t) {u : Bytes}
    (ht : t = c :: u) (hc : isDelimiter c = true) : afterScalar s = t := by
  have hpass : ∀ (c : UInt8) (s : Bytes), IsBare c.toNat →
      afterScalar (c :: s) = afterScalar s := by
    intro c s hc
    have hplain : isDelimiter c = false := by
      have hbytes : ascii ",\x7d] \t\r\n" = [0x2C, 0x7D, 0x5D, 0x20, 0x09, 0x0D, 0x0A] := by decide
      unfold IsBare IsDigit at hc
      simp only [isDelimiter, hbytes, List.mem_cons, List.not_mem_nil, or_false,
        decide_eq_false_iff_not, ← UInt8.toNat_inj, UInt8.reduceToNat]
      omega
    rw [afterScalar, List.dropWhile_cons_of_pos (by rw [hplain]; rfl), afterScalar]
  rw [Passes.bare hpass h, ht, afterScalar, List.dropWhile_cons_of_neg]
  rw [hc]
  exact Bool.false_ne_true

/-- A value before a delimiter is read as it is. -/
theorem readValue_reads {x s t u : Bytes} {d : Nat} {ms : List (Member UInt8)}
    (hspace : Space UInt8.toNat x s) (h : Reads UInt8.toNat .value s t d ms) (ht : t = c :: u)
    (hc : isDelimiter c = true) : readValue x = some (taken s t, t) := by
  have hbrackets : ∀ {b : UInt8} {a : Bytes}, s = b :: a → b = 0x7B ∨ b = 0x5B →
      afterBrackets 1 a = some t → readValue x = some (taken s t, t) := by
    rintro b a rfl hb hafter
    rw [readValue, skipSpace_value hspace h]
    dsimp only
    have hquote : b ≠ 0x22 := by
      rcases hb with rfl | rfl
      · decide
      · decide
    rw [if_neg hquote, if_pos hb, afterBrackets_open hb.symm]
    rw [Int.zero_add, hafter, Option.map_some]
  cases h with
  | scalar hscalar =>
    obtain ⟨b, s', rfl, -, hblank, hopen, hopen', -⟩ := Checker.scalar_complete hscalar
    rw [readValue, skipSpace_cons hspace hblank]
    dsimp only
    have hbare : b ≠ 0x22 → (Literal UInt8.toNat (b :: s') t ∨ Number UInt8.toNat (b :: s') t) →
        (if b = 0x22 then readString (b :: s')
          else if b = 0x7B ∨ b = 0x5B then
            (afterBrackets 0 (b :: s')).map fun t => (taken (b :: s') t, t)
          else if afterScalar (b :: s') = [] then none
          else some (taken (b :: s') (afterScalar (b :: s')), afterScalar (b :: s'))) =
        some (taken (b :: s') t, t) := by
      intro hquote hrule
      have hne : ¬t = [] := by
        rw [ht]
        exact List.cons_ne_nil _ _
      rw [if_neg hquote, if_neg (not_or.mpr ⟨hopen', hopen⟩), afterScalar_bare hrule ht hc,
        if_neg hne]
    rcases hscalar with hliteral | hnumber | hstr
    · refine hbare ?_ (.inl hliteral)
      rintro rfl
      rcases hliteral with hword | hword | hword
      · cases (word_iff (w := ascii "true")).mp hword
      · cases (word_iff (w := ascii "false")).mp hword
      · cases (word_iff (w := ascii "null")).mp hword
    · refine hbare ?_ (.inr hnumber)
      rintro rfl
      obtain ⟨b, s'', heq, hb⟩ := number_head hnumber
      cases heq
      exact absurd hb (by decide)
    · obtain ⟨v, hquote, -⟩ := afterString_str hstr
      cases hquote
      rw [if_pos rfl]
      exact readString_str .refl hstr
  | emptyArray h =>
    obtain ⟨a, hopen, b, hinside, hclose⟩ := h
    obtain rfl := (one_iff (c := 0x5B)).mp hopen
    obtain rfl := (one_iff (c := 0x5D)).mp hclose
    refine hbrackets rfl (.inr rfl) ?_
    rw [afterBrackets_space hinside, ← Int.zero_add 1, afterBrackets_close (.inl rfl), if_pos rfl]
  | emptyObject h =>
    obtain ⟨a, hopen, b, hinside, hclose⟩ := h
    obtain rfl := (one_iff (c := 0x7B)).mp hopen
    obtain rfl := (one_iff (c := 0x7D)).mp hclose
    refine hbrackets rfl (.inl rfl) ?_
    rw [afterBrackets_space hinside, ← Int.zero_add 1, afterBrackets_close (.inr rfl), if_pos rfl]
  | array hopen hinside hclose =>
    obtain rfl := (one_iff (c := 0x5B)).mp hopen
    obtain rfl := (one_iff (c := 0x5D)).mp hclose
    refine hbrackets rfl (.inr rfl) ?_
    rw [afterBrackets_reads hinside (by decide), ← Int.zero_add 1, afterBrackets_close (.inl rfl),
      if_pos rfl]
  | object hopen hinside hclose =>
    obtain rfl := (one_iff (c := 0x7B)).mp hopen
    obtain rfl := (one_iff (c := 0x7D)).mp hclose
    refine hbrackets rfl (.inl rfl) ?_
    rw [afterBrackets_reads hinside (by decide), ← Int.zero_add 1, afterBrackets_close (.inr rfl),
      if_pos rfl]

end Kotatsu.Ipc.Codec.JsonCodec
