import Kotatsu.Ipc.Lsp.RoundTrip

/-!
# Looking back and scanning forward

A scan from the start of a text stops where a code point begins, and where the text ends.
`locate` finds a byte as the scan does, though it looks back over three bytes at most; in
the other encodings it undoes the count of the units before a place where the scan stops.
-/

namespace Kotatsu.Ipc.Lsp

open Kotatsu.Core

variable {text : Bytes} {encoding : PositionEncoding}

/-- The scan from a place where it stops: a byte where it stops is found exactly, and one
that it passes over is in the code point that it passes over it with. -/
def scanFrom (text : Bytes) (offset i : Nat) : Located :=
  if i = offset then { offset := i, exact := true }
  else if i < text.length then
    if offset < i + (nextCodepointSizes text i).1 then { offset := i, exact := false }
    else scanFrom text offset (i + (nextCodepointSizes text i).1)
  else { offset := text.length, exact := false }
termination_by text.length - i
decreasing_by
  have := (nextCodepointSizes_pos text i).1
  omega

/-- The scan of a text from its start. -/
def scan (text : Bytes) (offset : Nat) : Located := scanFrom text offset 0

/-- The scan stops at a byte, or at the text's end. -/
def Stops (text : Bytes) (offset : Nat) : Prop :=
  scan text offset = { offset, exact := true }

theorem scanFrom_places {offset i u : Nat} (h : Marked .utf8 text i u) (hle : i ≤ offset) :
    Places .utf8 text offset (scanFrom text offset i) := by
  induction hk : text.length - i using Nat.strong_induction_on generalizing i u with
  | _ k ih =>
    have hunits := h.utf8_units
    rw [scanFrom]
    split
    · next heq =>
      rw [hunits, heq] at h
      rw [heq]
      exact .exact h
    · next hne =>
      have hpos := (nextCodepointSizes_pos text i).1
      split
      · next hi =>
        split
        · next hover => exact .inside h hi (by omega) (by rw [hunits]; exact hover)
        · next hover => exact ih _ (by omega) (h.next hi) (Nat.not_lt.mp hover) rfl
      · next hi =>
        obtain rfl : i = text.length := le_antisymm h.le (Nat.le_of_not_lt hi)
        exact .past h (by omega)

theorem scan_places (text : Bytes) (offset : Nat) :
    Places .utf8 text offset (scan text offset) :=
  scanFrom_places (Marked.zero .utf8 text) (Nat.zero_le _)

/-- No mark has as many units as fall inside a code point, or past the end. -/
theorem Places.not_marked {character s : Nat} {found : Located}
    (h : Places encoding text character found) (hexact : found.exact = false) :
    ¬Marked encoding text s character := by
  intro hs
  cases h with
  | exact h => exact absurd hexact Bool.noConfusion
  | inside h hlt hlo hhi =>
    have := (h.next_le hs (.inr hlo)).2
    omega
  | past h hlt =>
    have hnext := (h.next_le hs (.inr hlt)).1
    have hpos := (nextCodepointSizes_pos text text.length).1
    have hle := hs.le
    omega

/-- A unit falls in one place. -/
theorem Places.unique {character : Nat} {found found' : Located}
    (h : Places encoding text character found) (h' : Places encoding text character found') :
    found = found' := by
  cases h with
  | @exact s hs =>
    cases h' with
    | exact hs' => rw [hs.eq_of_units hs']
    | inside h' hlt hlo hhi => exact absurd hs ((Places.inside h' hlt hlo hhi).not_marked rfl)
    | past h' hlt => exact absurd hs ((Places.past h' hlt).not_marked rfl)
  | @inside s u hs hlt hlo hhi =>
    cases h' with
    | exact hs' => exact absurd hs' ((Places.inside hs hlt hlo hhi).not_marked rfl)
    | @inside s' u' hs' hlt' hlo' hhi' =>
      obtain hu | rfl | hu := Nat.lt_trichotomy u u'
      · have := (hs.next_le hs' (.inr hu)).2
        omega
      · rw [hs.eq_of_units hs']
      · have := (hs'.next_le hs (.inr hu)).2
        omega
    | @past u' hs' hlt' =>
      have := (hs.next_le hs' (.inl hlt)).2
      omega
  | @past u hs hlt =>
    cases h' with
    | exact hs' => exact absurd hs' ((Places.past hs hlt).not_marked rfl)
    | inside hs' hlt' hlo' hhi' =>
      have := (hs'.next_le hs (.inl hlt')).2
      omega
    | past hs' hlt' => rfl

/-- The scan stops at the marks. -/
theorem stops_iff {offset : Nat} : Stops text offset ↔ Marked .utf8 text offset offset := by
  constructor
  · intro hstops
    have hplaces := scan_places text offset
    rw [hstops] at hplaces
    cases hplaces with
    | exact h => exact h
  · exact fun h => (scan_places text offset).unique (.exact h)

/-- `locate` in a text shorter than 4 GiB finds a byte where the scan forward does, and a
unit where as many units come before as the prefix that ends there is long. -/
theorem locate_spec (text : Bytes) (ht : text.length < 2 ^ 32) :
    (∀ offset, locate text offset .utf8 = scan text offset) ∧
      ∀ encoding : PositionEncoding, encoding ≠ .utf8 →
        (∀ s, Stops text s →
          locate text (encodedLength (text.take s) encoding) encoding =
            { offset := s, exact := true }) ∧
        ∀ character s, locate text character encoding = { offset := s, exact := true } →
          Stops text s ∧ encodedLength (text.take s) encoding = character := by
  refine ⟨fun offset => ?_, fun encoding _ => ⟨fun s hstops => ?_, fun character s hfound => ?_⟩⟩
  · exact (locate_places .utf8 offset ht).unique (scan_places text offset)
  · obtain ⟨u, hu⟩ := (stops_iff.mp hstops).change encoding
    have hlength := encodedLength_take hu ht
    rw [substr, List.drop_zero] at hlength
    rw [hlength]
    exact locate_of_marked hu ht
  · have hplaces := locate_places encoding character ht
    rw [hfound] at hplaces
    cases hplaces with
    | exact h =>
      obtain ⟨u, hu⟩ := h.change .utf8
      have hlength := encodedLength_take h ht
      rw [substr, List.drop_zero] at hlength
      refine ⟨stops_iff.mpr ?_, hlength⟩
      rwa [hu.utf8_units] at hu

/-- A text whose third byte continues the sequence its second begins, and whose last
continues none. -/
theorem locate_spec_probe :
    (locate [0x61, 0xC3, 0xA9, 0xA9] 2 .utf8 = scan [0x61, 0xC3, 0xA9, 0xA9] 2 ∧
      locate [0x61, 0xC3, 0xA9, 0xA9] 3 .utf8 = scan [0x61, 0xC3, 0xA9, 0xA9] 3) ∧
      locate [0x61, 0xC3, 0xA9, 0xA9] (encodedLength [0x61, 0xC3, 0xA9] .utf16) .utf16 =
        { offset := 3, exact := true } := by
  obtain ⟨hscan, hunits⟩ := locate_spec [0x61, 0xC3, 0xA9, 0xA9] (by decide)
  have hstops : Stops [0x61, 0xC3, 0xA9, 0xA9] 3 := stops_iff.mpr ⟨by decide, 2, by decide⟩
  exact ⟨⟨hscan 2, hscan 3⟩, (hunits .utf16 (by decide)).1 3 hstops⟩

/-! ## Texts of 4 GiB -/

theorem scan_ascii {n : Nat} (hn : 1 < n) :
    scan (List.replicate n 0x61) 1 = { offset := 1, exact := true } := by
  obtain ⟨k, rfl⟩ := Nat.exists_eq_add_of_lt hn
  have hfirst : nextCodepointSizes (List.replicate (1 + k + 1) 0x61) 0 = (1, 1) := by
    rw [nextCodepointSizes, List.drop_zero, List.replicate_succ]
    rfl
  have hlt : 0 < (List.replicate (1 + k + 1) (0x61 : UInt8)).length := by
    rw [List.length_replicate]
    exact Nat.succ_pos _
  rw [scan, scanFrom, if_neg Nat.zero_ne_one, if_pos hlt, hfirst]
  dsimp only
  rw [Nat.zero_add, if_neg (Nat.lt_irrefl 1), scanFrom, if_pos rfl]

/-- A text of 4 GiB has a size of 0 in 32 bits: its second byte is past the end. -/
theorem locate_scan_differ :
    locate (List.replicate (2 ^ 32) 0x61) 1 .utf8 ≠ scan (List.replicate (2 ^ 32) 0x61) 1 := by
  have hsize : u32 (List.replicate (2 ^ 32) (0x61 : UInt8)).length = 0 := by
    rw [List.length_replicate]
    rfl
  have hpast : 1 ≥ u32 (List.replicate (2 ^ 32) (0x61 : UInt8)).length := by
    rw [hsize]
    exact Nat.zero_le 1
  rw [scan_ascii (by decide), locate]
  dsimp only
  rw [if_pos rfl, if_pos hpast, hsize]
  exact fun heq => absurd (congrArg Located.exact heq) Bool.false_ne_true

end Kotatsu.Ipc.Lsp
