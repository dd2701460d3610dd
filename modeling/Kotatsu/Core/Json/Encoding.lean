import Kotatsu.Core.Json.Grammar
import Kotatsu.Core.Bytes

/-!
# JSON as encoded

An encoding that writes each ASCII character as itself, and every other character as
characters outside ASCII, carries each rule of the grammar both ways: what is JSON
before is JSON after, and an encoded text that is read as JSON is the encoding of one.
UTF-8 is such an encoding.
-/

namespace Kotatsu.Core.Json

open Relation

variable {α β : Type} {code : α → Nat} {code' : β → Nat} {enc : α → List β}

/-- ASCII is kept, and only ASCII becomes ASCII. -/
structure Transparent (code : α → Nat) (code' : β → Nat) (enc : α → List β) : Prop where
  ascii : ∀ a, code a < 0x80 → ∃ b, enc a = [b] ∧ code' b = code a
  other : ∀ a, 0x80 ≤ code a → enc a ≠ [] ∧ ∀ b ∈ enc a, 0x80 ≤ code' b

/-- A rule and the same of the encoded text. -/
structure Carries (enc : α → List β) (r : List α → List α → Prop)
    (r' : List β → List β → Prop) : Prop where
  lift : ∀ ⦃s t⦄, r s t → r' (s.flatMap enc) (t.flatMap enc)
  lower : ∀ ⦃s t'⦄, r' (s.flatMap enc) t' → ∃ t, t' = t.flatMap enc ∧ r s t

namespace Carries

variable {r p : List α → List α → Prop} {r' p' : List β → List β → Prop}

theorem eq : Carries enc Eq Eq where
  lift _ _ h := congrArg _ h
  lower s _ h := ⟨s, h.symm, rfl⟩

theorem comp (h : Carries enc r r') (hp : Carries enc p p') :
    Carries enc (Comp r p) (Comp r' p') where
  lift := by
    rintro s t ⟨u, hr, hq⟩
    exact ⟨_, h.lift hr, hp.lift hq⟩
  lower := by
    rintro s t' ⟨u', hr, hq⟩
    obtain ⟨u, rfl, hu⟩ := h.lower hr
    obtain ⟨t, rfl, ht⟩ := hp.lower hq
    exact ⟨t, rfl, u, hu, ht⟩

theorem or (h : Carries enc r r') (hp : Carries enc p p') :
    Carries enc (fun s t => r s t ∨ p s t) (fun s t => r' s t ∨ p' s t) where
  lift := by
    rintro s t (hr | hq)
    · exact .inl (h.lift hr)
    · exact .inr (hp.lift hq)
  lower := by
    rintro s t' (hr | hq)
    · obtain ⟨t, rfl, ht⟩ := h.lower hr
      exact ⟨t, rfl, .inl ht⟩
    · obtain ⟨t, rfl, ht⟩ := hp.lower hq
      exact ⟨t, rfl, .inr ht⟩

theorem opt (h : Carries enc r r') : Carries enc (ReflGen r) (ReflGen r') where
  lift := by
    rintro s t (_ | hr)
    · exact .refl
    · exact .single (h.lift hr)
  lower := by
    rintro s t' (_ | hr)
    · exact ⟨s, rfl, .refl⟩
    · obtain ⟨t, rfl, ht⟩ := h.lower hr
      exact ⟨t, rfl, .single ht⟩

theorem star (h : Carries enc r r') : Carries enc (ReflTransGen r) (ReflTransGen r') where
  lift s t hr := by
    induction hr with
    | refl => exact .refl
    | tail _ hstep ih => exact ih.tail (h.lift hstep)
  lower s t' hr := by
    induction hr with
    | refl => exact ⟨s, rfl, .refl⟩
    | tail _ hstep ih =>
      obtain ⟨u, rfl, hu⟩ := ih
      obtain ⟨t, rfl, ht⟩ := h.lower hstep
      exact ⟨t, rfl, hu.tail ht⟩

theorem plus (h : Carries enc r r') : Carries enc (TransGen r) (TransGen r') where
  lift s t hr := by
    obtain ⟨u, hstep, hrest⟩ := TransGen.head'_iff.mp hr
    exact TransGen.head' (h.lift hstep) (h.star.lift hrest)
  lower s t' hr := by
    obtain ⟨u', hstep, hrest⟩ := TransGen.head'_iff.mp hr
    obtain ⟨u, rfl, hu⟩ := h.lower hstep
    obtain ⟨t, rfl, ht⟩ := h.star.lower hrest
    exact ⟨t, rfl, TransGen.head' hu ht⟩

/-- An ASCII character. -/
theorem one (henc : Transparent code code' enc) {p : Nat → Prop} (hp : ∀ n, p n → n < 0x80) :
    Carries enc (One code p) (One code' p) where
  lift := by
    rintro _ s ⟨h⟩
    obtain ⟨b, hb, hcode⟩ := henc.ascii _ (hp _ h)
    rw [List.flatMap_cons, hb]
    exact .intro (hcode ▸ h)
  lower := by
    intro s t' h
    cases s with
    | nil => cases h
    | cons a s =>
      rcases Nat.lt_or_ge (code a) 0x80 with ha | ha
      · obtain ⟨b, hb, hcode⟩ := henc.ascii a ha
        rw [List.flatMap_cons, hb] at h
        cases h with
        | intro h => exact ⟨s, rfl, .intro (hcode ▸ h)⟩
      · obtain ⟨hne, hall⟩ := henc.other a ha
        obtain ⟨b, bs, hb⟩ := List.exists_cons_of_ne_nil hne
        rw [List.flatMap_cons, hb] at h
        cases h with
        | intro h =>
          have hhigh := hall b (hb ▸ List.mem_cons_self)
          have hlow := hp _ h
          omega

theorem word (henc : Transparent code code' enc) {w : List Nat} (hw : ∀ n ∈ w, n < 0x80) :
    Carries enc (Word code w) (Word code' w) := by
  induction w with
  | nil => exact eq
  | cons n w ih =>
    refine (one henc ?_).comp (ih fun m hm => hw m (List.mem_cons_of_mem _ hm))
    rintro _ rfl
    exact hw _ List.mem_cons_self

end Carries

/-! ## Scalars -/

/-- Characters that are plain stand in a string as they are. -/
theorem Chars.plain {γ : Type} {code : γ → Nat} {front : List γ} (s : List γ)
    (h : ∀ a ∈ front, IsPlain (code a)) : Chars code (front ++ s) s := by
  induction front with
  | nil => exact .refl
  | cons a front ih =>
    obtain ⟨ha, hfront⟩ := List.forall_mem_cons.mp h
    exact .head (.inl (.intro ha)) (ih hfront)

variable {s t : List α} {d : Nat}

section Scalars

variable (henc : Transparent code code' enc)

include henc

theorem Carries.space : Carries enc (Space code) (Space code') :=
  (one henc fun n h => by unfold IsSpace at h; omega).star

theorem Carries.digit : Carries enc (One code IsDigit) (One code' IsDigit) :=
  one henc fun n h => by unfold IsDigit at h; omega

theorem Carries.number : Carries enc (Number code) (Number code') := by
  have hdigits : Carries enc (Digits code) (Digits code') := (digit henc).plus
  have hint : Carries enc (Int code) (Int code') :=
    (one henc (by rintro _ rfl; decide)).or
      ((one henc fun n h => by unfold IsLeading at h; omega).comp (digit henc).star)
  have hfrac : Carries enc (Frac code) (Frac code') :=
    (one henc (by rintro _ rfl; decide)).comp hdigits
  have hexp : Carries enc (Exp code) (Exp code') :=
    (one henc (by rintro _ (rfl | rfl) <;> decide)).comp
      ((one henc (by rintro _ (rfl | rfl) <;> decide)).opt.comp hdigits)
  exact (one henc (by rintro _ rfl; decide)).opt.comp (hint.comp (hfrac.opt.comp hexp.opt))

theorem Carries.escape : Carries enc (Escape code) (Escape code') := by
  have hhex : Carries enc (One code IsHex) (One code' IsHex) :=
    one henc fun n h => by unfold IsHex IsDigit at h; omega
  refine (one henc (by rintro _ rfl; decide)).comp ((one henc ?_).or
    ((one henc (by rintro _ rfl; decide)).comp (hhex.comp (hhex.comp (hhex.comp hhex)))))
  intro n h
  unfold IsEscaped at h
  omega

theorem Chars.lift (h : Chars code s t) : Chars code' (s.flatMap enc) (t.flatMap enc) := by
  induction h with
  | refl => exact .refl
  | tail _ hstep ih =>
    refine ReflTransGen.trans ih ?_
    rcases hstep with ⟨⟨hplain⟩⟩ | hescape
    · rename_i a u
      rw [List.flatMap_cons]
      refine Chars.plain _ fun b hb => ?_
      rcases Nat.lt_or_ge (code a) 0x80 with ha | ha
      · obtain ⟨b', hb', hcode⟩ := henc.ascii a ha
        rw [hb', List.mem_singleton] at hb
        rw [hb, hcode]
        exact hplain
      · have hhigh := (henc.other a ha).2 b hb
        unfold IsPlain
        omega
    · exact .single (.inr ((Carries.escape henc).lift hescape))

/-- A string's text that is followed by ASCII ends at the end of a character. -/
theorem Chars.lower {x t' : List β} (h : Chars code' x t') (ht : ∀ b ∈ t'.head?, code' b < 0x80)
    {front : List β} (hx : x = front ++ s.flatMap enc) (hfront : ∀ b ∈ front, 0x80 ≤ code' b) :
    ∃ t, t' = t.flatMap enc ∧ Chars code s t := by
  induction h using ReflTransGen.head_induction_on generalizing front s with
  | refl =>
    cases front with
    | nil => exact ⟨s, hx, .refl⟩
    | cons b front =>
      rw [hx] at ht
      have hlow := ht b rfl
      have hhigh := hfront b List.mem_cons_self
      omega
  | head hstep _ ih =>
    cases front with
    | cons b front =>
      obtain ⟨hb, hrest⟩ := List.forall_mem_cons.mp hfront
      subst hx
      rcases hstep with ⟨⟨-⟩⟩ | ⟨u, ⟨hslash⟩, -⟩
      · exact ih rfl hrest
      · omega
    | nil =>
      subst hx
      rw [List.nil_append] at hstep
      rcases hstep with hplain | hescape
      · cases s with
        | nil => cases hplain
        | cons a s =>
          rw [List.flatMap_cons] at hplain
          rcases Nat.lt_or_ge (code a) 0x80 with ha | ha
          · obtain ⟨b, hb, hcode⟩ := henc.ascii a ha
            rw [hb] at hplain
            obtain ⟨hp⟩ := hplain
            obtain ⟨t, rfl, hchars⟩ := ih rfl (List.forall_mem_nil _)
            exact ⟨t, rfl, .head (.inl (.intro (hcode ▸ hp))) hchars⟩
          · obtain ⟨hne, hall⟩ := henc.other a ha
            obtain ⟨b, bs, hb⟩ := List.exists_cons_of_ne_nil hne
            rw [hb] at hplain hall
            obtain ⟨-⟩ := hplain
            obtain ⟨t, rfl, hchars⟩ := ih rfl (List.forall_mem_cons.mp hall).2
            refine ⟨t, rfl, .head (.inl (.intro ?_)) hchars⟩
            unfold IsPlain
            omega
      · obtain ⟨u, rfl, hu⟩ := (Carries.escape henc).lower hescape
        obtain ⟨t, rfl, hchars⟩ := ih rfl (List.forall_mem_nil _)
        exact ⟨t, rfl, .head (.inr hu) hchars⟩

theorem Carries.str : Carries enc (Str code) (Str code') := by
  have hquote : Carries enc (One code (· = 0x22)) (One code' (· = 0x22)) :=
    one henc (by rintro _ rfl; decide)
  refine hquote.comp ⟨?_, ?_⟩
  · rintro s t ⟨u, hchars, hend⟩
    exact ⟨_, hchars.lift henc, hquote.lift hend⟩
  · rintro s t' ⟨u', hchars, hend⟩
    obtain ⟨u, rfl, hu⟩ := hchars.lower henc (by
      obtain ⟨hq⟩ := hend
      rintro b ⟨⟩
      rw [hq]
      decide) rfl (List.forall_mem_nil _)
    obtain ⟨t, rfl, ht⟩ := hquote.lower hend
    exact ⟨t, rfl, u, hu, ht⟩

theorem Carries.scalar : Carries enc (Scalar code) (Scalar code') :=
  ((word henc (by decide)).or ((word henc (by decide)).or (word henc (by decide)))).or
    ((number henc).or (str henc))

end Scalars

/-! ## Values -/

/-- A member of the encoded text. -/
def Member.encode (enc : α → List β) (m : Member α) : Member β :=
  ⟨m.key.flatMap enc, m.value.flatMap enc, m.rest.flatMap enc⟩

/-- The encoded text of what a rule takes. -/
theorem flatMap_take (h : t <:+ s) :
    (s.take (s.length - t.length)).flatMap enc =
      (s.flatMap enc).take ((s.flatMap enc).length - (t.flatMap enc).length) := by
  obtain ⟨front, rfl⟩ := h
  rw [List.flatMap_append, List.length_append, List.length_append, Nat.add_sub_cancel,
    Nat.add_sub_cancel, List.take_left, List.take_left]

section Values

variable (henc : Transparent code code' enc)

include henc

theorem Carries.ascii (n : Nat) (hn : n < 0x80) :
    Carries enc (One code (· = n)) (One code' (· = n)) :=
  one henc (by rintro _ rfl; exact hn)

theorem Reads.lift {p : Nonterminal} {ms : List (Member α)} (h : Reads code p s t d ms) :
    Reads code' p (s.flatMap enc) (t.flatMap enc) d (ms.map (Member.encode enc)) := by
  have hspace := Carries.space henc
  have hchar := Carries.ascii henc
  induction h with
  | scalar h => exact .scalar ((Carries.scalar henc).lift h)
  | emptyArray h =>
    exact .emptyArray
      (((hchar 0x5B (by decide)).comp (hspace.comp (hchar 0x5D (by decide)))).lift h)
  | emptyObject h =>
    exact .emptyObject
      (((hchar 0x7B (by decide)).comp (hspace.comp (hchar 0x7D (by decide)))).lift h)
  | array hopen _ hclose ih =>
    exact .array ((hchar 0x5B (by decide)).lift hopen) ih ((hchar 0x5D (by decide)).lift hclose)
  | object hopen _ hclose ih =>
    exact .object ((hchar 0x7B (by decide)).lift hopen) ih ((hchar 0x7D (by decide)).lift hclose)
  | element hbefore _ hafter ih =>
    exact .element (hspace.lift hbefore) ih (hspace.lift hafter)
  | elements hbefore _ hafter hcomma _ ih ihrest =>
    exact .elements (hspace.lift hbefore) ih (hspace.lift hafter)
      ((hchar 0x2C (by decide)).lift hcomma) ihrest
  | member hkey hstr hbetween hcolon hbefore _ hafter ih =>
    rw [List.map_singleton, Member.encode, flatMap_take (Takes.str hstr).1]
    exact .member (hspace.lift hkey) ((Carries.str henc).lift hstr) (hspace.lift hbetween)
      ((hchar 0x3A (by decide)).lift hcolon) (hspace.lift hbefore) ih (hspace.lift hafter)
  | members hkey hstr hbetween hcolon hbefore _ hafter hcomma _ ih ihrest =>
    rw [List.map_cons, Member.encode, flatMap_take (Takes.str hstr).1]
    exact .members (hspace.lift hkey) ((Carries.str henc).lift hstr) (hspace.lift hbetween)
      ((hchar 0x3A (by decide)).lift hcolon) (hspace.lift hbefore) ih (hspace.lift hafter)
      ((hchar 0x2C (by decide)).lift hcomma) ihrest

theorem Reads.lower {p : Nonterminal} {s' t' : List β} {ms' : List (Member β)}
    (h : Reads code' p s' t' d ms') (hs : s' = s.flatMap enc) :
    ∃ t ms, t' = t.flatMap enc ∧ ms' = ms.map (Member.encode enc) ∧ Reads code p s t d ms := by
  have hspace := Carries.space henc
  have hchar := Carries.ascii henc
  induction h generalizing s with
  | scalar h =>
    subst hs
    obtain ⟨t, rfl, ht⟩ := (Carries.scalar henc).lower h
    exact ⟨t, [], rfl, rfl, .scalar ht⟩
  | emptyArray h =>
    subst hs
    obtain ⟨t, rfl, ht⟩ :=
      ((hchar 0x5B (by decide)).comp (hspace.comp (hchar 0x5D (by decide)))).lower h
    exact ⟨t, [], rfl, rfl, .emptyArray ht⟩
  | emptyObject h =>
    subst hs
    obtain ⟨t, rfl, ht⟩ :=
      ((hchar 0x7B (by decide)).comp (hspace.comp (hchar 0x7D (by decide)))).lower h
    exact ⟨t, [], rfl, rfl, .emptyObject ht⟩
  | array hopen _ hclose ih =>
    subst hs
    obtain ⟨a, rfl, ha⟩ := (hchar 0x5B (by decide)).lower hopen
    obtain ⟨b, ms, rfl, -, hb⟩ := ih rfl
    obtain ⟨t, rfl, ht⟩ := (hchar 0x5D (by decide)).lower hclose
    exact ⟨t, [], rfl, rfl, .array ha hb ht⟩
  | object hopen _ hclose ih =>
    subst hs
    obtain ⟨a, rfl, ha⟩ := (hchar 0x7B (by decide)).lower hopen
    obtain ⟨b, ms, rfl, rfl, hb⟩ := ih rfl
    obtain ⟨t, rfl, ht⟩ := (hchar 0x7D (by decide)).lower hclose
    exact ⟨t, ms, rfl, rfl, .object ha hb ht⟩
  | element hbefore _ hafter ih =>
    subst hs
    obtain ⟨a, rfl, ha⟩ := hspace.lower hbefore
    obtain ⟨b, ms, rfl, -, hb⟩ := ih rfl
    obtain ⟨t, rfl, ht⟩ := hspace.lower hafter
    exact ⟨t, [], rfl, rfl, .element ha hb ht⟩
  | elements hbefore _ hafter hcomma _ ih ihrest =>
    subst hs
    obtain ⟨a, rfl, ha⟩ := hspace.lower hbefore
    obtain ⟨b, ms, rfl, -, hb⟩ := ih rfl
    obtain ⟨c, rfl, hc⟩ := hspace.lower hafter
    obtain ⟨c', rfl, hc'⟩ := (hchar 0x2C (by decide)).lower hcomma
    obtain ⟨t, ns, rfl, -, ht⟩ := ihrest rfl
    exact ⟨t, [], rfl, rfl, .elements ha hb hc hc' ht⟩
  | member hkey hstr hbetween hcolon hbefore _ hafter ih =>
    subst hs
    obtain ⟨k, rfl, hk⟩ := hspace.lower hkey
    obtain ⟨k', rfl, hk'⟩ := (Carries.str henc).lower hstr
    obtain ⟨c, rfl, hc⟩ := hspace.lower hbetween
    obtain ⟨c', rfl, hc'⟩ := (hchar 0x3A (by decide)).lower hcolon
    obtain ⟨a, rfl, ha⟩ := hspace.lower hbefore
    obtain ⟨b, ms, rfl, -, hb⟩ := ih rfl
    obtain ⟨t, rfl, ht⟩ := hspace.lower hafter
    refine ⟨t, _, rfl, ?_, .member hk hk' hc hc' ha hb ht⟩
    rw [List.map_singleton, Member.encode, flatMap_take (Takes.str hk').1]
  | members hkey hstr hbetween hcolon hbefore _ hafter hcomma _ ih ihrest =>
    subst hs
    obtain ⟨k, rfl, hk⟩ := hspace.lower hkey
    obtain ⟨k', rfl, hk'⟩ := (Carries.str henc).lower hstr
    obtain ⟨c, rfl, hc⟩ := hspace.lower hbetween
    obtain ⟨c', rfl, hc'⟩ := (hchar 0x3A (by decide)).lower hcolon
    obtain ⟨a, rfl, ha⟩ := hspace.lower hbefore
    obtain ⟨b, ms, rfl, -, hb⟩ := ih rfl
    obtain ⟨e, rfl, he⟩ := hspace.lower hafter
    obtain ⟨e', rfl, he'⟩ := (hchar 0x2C (by decide)).lower hcomma
    obtain ⟨t, ns, rfl, rfl, ht⟩ := ihrest rfl
    refine ⟨t, _, rfl, ?_, .members hk hk' hc hc' ha hb he he' ht⟩
    rw [List.map_cons, Member.encode, flatMap_take (Takes.str hk').1]

/-- A text is JSON if and only if it is JSON as encoded, with the same nesting and members. -/
theorem Text.encode {ms' : List (Member β)} (hne : ∀ a, enc a ≠ []) :
    Text code' (s.flatMap enc) d ms' ↔
      ∃ ms, ms' = ms.map (Member.encode enc) ∧ Text code s d ms := by
  have hspace := Carries.space henc
  constructor
  · rintro ⟨a', b', ha', hb', ht'⟩
    obtain ⟨a, rfl, ha⟩ := hspace.lower ha'
    obtain ⟨b, ms, rfl, rfl, hb⟩ := Reads.lower henc hb' rfl
    obtain ⟨t, hnil, ht⟩ := hspace.lower ht'
    cases t with
    | nil => exact ⟨ms, rfl, a, b, ha, hb, ht⟩
    | cons c t =>
      rw [List.flatMap_cons] at hnil
      exact absurd (List.append_eq_nil_iff.mp hnil.symm).1 (hne c)
  · rintro ⟨ms, rfl, a, b, ha, hb, ht⟩
    exact ⟨_, _, hspace.lift ha, hb.lift henc, hspace.lift ht⟩

end Values

/-! ## UTF-8 -/

/-- The UTF-8 text of some characters. -/
def utf8 (s : List Char) : Bytes := s.flatMap String.utf8EncodeChar

theorem utf8_transparent : Transparent Char.toNat UInt8.toNat String.utf8EncodeChar where
  ascii c hc := by
    have hle : c.val.toNat ≤ 0x7F := Nat.le_of_lt_succ hc
    refine ⟨UInt8.ofNat c.val.toNat, ?_, ?_⟩
    · simp only [String.utf8EncodeChar, hle, if_true]
    · rw [UInt8.toNat_ofNat']
      exact Nat.mod_eq_of_lt (by omega)
  other c hc := by
    have hlt : ¬c.val.toNat ≤ 0x7F := Nat.not_le_of_gt hc
    simp only [String.utf8EncodeChar, hlt, if_false]
    split
    · refine ⟨List.cons_ne_nil _ _, ?_⟩
      simp only [List.forall_mem_cons, UInt8.toNat_ofNat']
      refine ⟨by omega, by omega, List.forall_mem_nil _⟩
    · split
      · refine ⟨List.cons_ne_nil _ _, ?_⟩
        simp only [List.forall_mem_cons, UInt8.toNat_ofNat']
        refine ⟨by omega, by omega, by omega, List.forall_mem_nil _⟩
      · refine ⟨List.cons_ne_nil _ _, ?_⟩
        simp only [List.forall_mem_cons, UInt8.toNat_ofNat']
        refine ⟨by omega, by omega, by omega, by omega, List.forall_mem_nil _⟩

theorem utf8EncodeChar_ne_nil (c : Char) : String.utf8EncodeChar c ≠ [] := by
  rcases Nat.lt_or_ge c.toNat 0x80 with hc | hc
  · obtain ⟨b, hb, -⟩ := utf8_transparent.ascii c hc
    rw [hb]
    exact List.cons_ne_nil _ _
  · exact (utf8_transparent.other c hc).1

/-- The ASCII of a text is the ASCII of its encoding. -/
theorem mem_utf8 {s : List Char} {n : Nat} (hn : n < 0x80) :
    (∃ b ∈ utf8 s, b.toNat = n) ↔ ∃ c ∈ s, c.toNat = n := by
  constructor
  · rintro ⟨b, hb, rfl⟩
    obtain ⟨c, hc, hbc⟩ := List.mem_flatMap.mp hb
    rcases Nat.lt_or_ge c.toNat 0x80 with hlow | hhigh
    · obtain ⟨b', hb', hcode⟩ := utf8_transparent.ascii c hlow
      rw [hb', List.mem_singleton] at hbc
      exact ⟨c, hc, by rw [hbc, hcode]⟩
    · have := (utf8_transparent.other c hhigh).2 b hbc
      omega
  · rintro ⟨c, hc, rfl⟩
    obtain ⟨b, hb, hcode⟩ := utf8_transparent.ascii c hn
    refine ⟨b, List.mem_flatMap.mpr ⟨c, hc, ?_⟩, hcode⟩
    rw [hb]
    exact List.mem_singleton_self b

/-- Only an ASCII text is written as it. -/
theorem utf8_inj_ascii {s w : List Char} (hw : ∀ c ∈ w, c.toNat < 0x80)
    (h : utf8 s = utf8 w) : s = w := by
  induction w generalizing s with
  | nil =>
    cases s with
    | nil => rfl
    | cons a s => exact absurd (List.append_eq_nil_iff.mp h).1 (utf8EncodeChar_ne_nil a)
  | cons c w ih =>
    obtain ⟨hc, hrest'⟩ := List.forall_mem_cons.mp hw
    obtain ⟨b, hb, hcode⟩ := utf8_transparent.ascii c hc
    have hcons : utf8 (c :: w) = b :: utf8 w := by
      rw [utf8, List.flatMap_cons, hb]
      rfl
    rw [hcons] at h
    cases s with
    | nil => cases h
    | cons a s =>
      rw [utf8, List.flatMap_cons] at h
      rcases Nat.lt_or_ge a.toNat 0x80 with ha | ha
      · obtain ⟨b', hb', hcode'⟩ := utf8_transparent.ascii a ha
        rw [hb', List.cons_append, List.cons.injEq] at h
        obtain ⟨rfl, hrest⟩ := h
        obtain rfl : a = c := Char.toNat_inj.mp (hcode'.symm.trans hcode)
        rw [ih hrest' hrest]
      · obtain ⟨hne, hall⟩ := utf8_transparent.other a ha
        obtain ⟨b', bs, hb'⟩ := List.exists_cons_of_ne_nil hne
        rw [hb'] at h hall
        rw [List.cons_append, List.cons.injEq] at h
        have := hall b' List.mem_cons_self
        rw [h.1] at this
        omega

/-! ## Keys -/

theorem unescape_plain {s : List Char} (h : '\\' ∉ s) : unescape s = some s := by
  induction s with
  | nil => rfl
  | cons c s ih =>
    obtain ⟨hc, hs⟩ := not_or.mp (List.mem_cons.not.mp h)
    rw [unescape]
    · rw [ih hs]
      rfl
    · rintro a b c d e rfl
      exact absurd rfl hc
    · rintro a b rfl
      exact absurd rfl hc

/-- A string is what stands between two quotes. -/
theorem str_quotes {key : List Char} (h : Str Char.toNat key []) :
    ∃ content, key = '"' :: (content ++ ['"']) := by
  obtain ⟨u, ⟨hopen⟩, v, hchars, hend⟩ := h
  obtain ⟨content, rfl⟩ := (Takes.chars hchars).1
  cases hend with
  | intro hclose =>
    obtain rfl := Char.toNat_inj.mp (hopen.trans (by rfl : (0x22 : Nat) = '"'.toNat))
    obtain rfl := Char.toNat_inj.mp (hclose.trans (by rfl : (0x22 : Nat) = '"'.toNat))
    exact ⟨content, rfl⟩

end Kotatsu.Core.Json
