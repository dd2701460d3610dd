import Kotatsu.Core.Bytes

/-!
# Writing over a buffer

`overwrite` is a copy of some bytes over a buffer that has room for them, and
`growTo` the growth of a buffer by zeroed bytes. Two buffers agree on a range when
they hold the same bytes there, and what a copy leaves alone agrees with what was
there before.
-/

namespace Kotatsu.Core

/-- The buffer with `data` copied over it at `at'`. -/
def overwrite (buffer : Bytes) (at' : Nat) (data : Bytes) : Bytes :=
  buffer.take at' ++ (data ++ buffer.drop (at' + data.length))

/-- The buffer cut or grown to `size` bytes, those it grows by zeroed. -/
def growTo (buffer : Bytes) (size : Nat) : Bytes :=
  buffer.take size ++ List.replicate (size - buffer.length) 0

variable {buffer data xs ys : Bytes} {at' i count size : Nat}

theorem length_overwrite (h : at' + data.length ≤ buffer.length) :
    (overwrite buffer at' data).length = buffer.length := by
  simp only [overwrite, List.length_append, List.length_take, List.length_drop]
  omega

theorem overwrite_outside (h : at' + data.length ≤ buffer.length)
    (hi : i < at' ∨ at' + data.length ≤ i) : (overwrite buffer at' data)[i]? = buffer[i]? := by
  have hlen : (buffer.take at').length = at' := by
    rw [List.length_take]
    omega
  rw [overwrite]
  by_cases hlt : i < at'
  · rw [List.getElem?_append_left (by omega), List.getElem?_take, if_pos hlt]
  · rw [List.getElem?_append_right (by omega), List.getElem?_append_right (by omega), hlen,
      List.getElem?_drop]
    congr 1
    omega

theorem substr_overwrite (h : at' + data.length ≤ buffer.length) :
    substr (overwrite buffer at' data) at' data.length = data := by
  have hlen : (buffer.take at').length = at' := by
    rw [List.length_take]
    omega
  rw [substr, overwrite, List.drop_append_of_le_length (Nat.le_of_eq hlen.symm),
    List.drop_eq_nil_of_le (Nat.le_of_eq hlen), List.nil_append, List.take_left]

theorem overwrite_middle {before middle after data : Bytes} (h : data.length = middle.length) :
    overwrite (before ++ (middle ++ after)) before.length data = before ++ (data ++ after) := by
  rw [overwrite, List.take_left, List.drop_length_add_append, h, List.drop_left]

theorem substr_middle {before middle after : Bytes} (h : middle.length = count) :
    substr (before ++ (middle ++ after)) before.length count = middle := by
  subst h
  rw [substr, List.drop_left, List.take_left]

theorem overwrite_nil : overwrite buffer at' [] = buffer := by
  rw [overwrite, List.nil_append, List.length_nil, Nat.add_zero, List.take_append_drop]

/-- Two copies one behind the other are one copy. -/
theorem overwrite_append (h : at' + xs.length + ys.length ≤ buffer.length) :
    overwrite (overwrite buffer at' xs) (at' + xs.length) ys = overwrite buffer at' (xs ++ ys) := by
  have hlen : (buffer.take at').length = at' := by
    rw [List.length_take]
    omega
  have htake : (overwrite buffer at' xs).take (at' + xs.length) = buffer.take at' ++ xs := by
    rw [overwrite, ← List.append_assoc]
    have hboth : (buffer.take at' ++ xs).length = at' + xs.length := by
      rw [List.length_append, hlen]
    rw [← hboth, List.take_left]
  have hdrop : (overwrite buffer at' xs).drop (at' + xs.length + ys.length) =
      buffer.drop (at' + (xs ++ ys).length) := by
    have hboth : (buffer.take at' ++ xs).length = at' + xs.length := by
      rw [List.length_append, hlen]
    rw [overwrite, ← List.append_assoc, ← hboth, List.drop_length_add_append, List.drop_drop,
      List.length_append, hlen, Nat.add_assoc, List.length_append]
  rw [overwrite, htake, hdrop, overwrite]
  simp only [List.append_assoc]

theorem length_growTo (h : buffer.length ≤ size) : (growTo buffer size).length = size := by
  rw [growTo, List.length_append, List.length_take, List.length_replicate]
  omega

theorem growTo_inside (h : buffer.length ≤ size) (hi : i < buffer.length) :
    (growTo buffer size)[i]? = buffer[i]? := by
  rw [growTo, List.take_of_length_le h, List.getElem?_append_left hi]

theorem growTo_outside (h : buffer.length ≤ size) (hi : buffer.length ≤ i) (hlt : i < size) :
    (growTo buffer size)[i]? = some 0 := by
  rw [growTo, List.take_of_length_le h, List.getElem?_append_right hi,
    List.getElem?_replicate, if_pos (by omega)]

/-- Bytes `i` with `start ≤ i < stop` are the same in both. -/
def AgreeOn (xs ys : Bytes) (start stop : Nat) : Prop :=
  ∀ i, start ≤ i → i < stop → xs[i]? = ys[i]?

theorem AgreeOn.mono {start stop start' stop' : Nat} (h : AgreeOn xs ys start stop)
    (hs : start ≤ start') (he : stop' ≤ stop) :
    AgreeOn xs ys start' stop' := fun i hi hlt => h i (hs.trans hi) (hlt.trans_le he)

theorem getElem?_substr {text : Bytes} (h : i < count) :
    (substr text at' count)[i]? = text[at' + i]? := by
  rw [substr, List.getElem?_take, if_pos h, List.getElem?_drop]

/-- Bytes that agree on a range have the same text there. -/
theorem AgreeOn.substr_eq {start stop at' count : Nat} (h : AgreeOn xs ys start stop)
    (hs : start ≤ at') (he : at' + count ≤ stop) : substr xs at' count = substr ys at' count := by
  apply List.ext_getElem?
  intro i
  by_cases hi : i < count
  · rw [getElem?_substr hi, getElem?_substr hi]
    exact h (at' + i) (by omega) (by omega)
  · rw [List.getElem?_eq_none (by rw [length_substr]; omega),
      List.getElem?_eq_none (by rw [length_substr]; omega)]

/-! ## Writes that stay inside -/

/-- A copy of `data` to `at'`, where the buffer has room for it. -/
def writeAt (buffer : Bytes) (at' : Nat) (data : Bytes) : Option Bytes :=
  if at' + data.length ≤ buffer.length then some (overwrite buffer at' data) else none

theorem writeAt_of_le (h : at' + data.length ≤ buffer.length) :
    writeAt buffer at' data = some (overwrite buffer at' data) := if_pos h

theorem getElem?_overwrite (h : at' + data.length ≤ buffer.length) (i : Nat) :
    (overwrite buffer at' data)[i]? =
      if at' ≤ i ∧ i < at' + data.length then data[i - at']? else buffer[i]? := by
  split
  · next hin =>
    have hlen : (buffer.take at').length = at' := by
      rw [List.length_take]
      omega
    rw [overwrite, List.getElem?_append_right (by omega), hlen,
      List.getElem?_append_left (by omega)]
  · next hout => exact overwrite_outside h (by omega)

/-- A copy of both ends of the data, which overlap or meet, is a copy of the data. -/
theorem overwrite_ends {at' k : Nat} (h : at' + data.length ≤ buffer.length) (hk : k ≤ data.length)
    (hends : data.length ≤ k + k) :
    overwrite (overwrite buffer at' (data.take k)) (at' + data.length - k)
      (data.drop (data.length - k)) = overwrite buffer at' data := by
  have hfront : (data.take k).length = k := by
    rw [List.length_take]
    omega
  have hback : (data.drop (data.length - k)).length = k := by
    rw [List.length_drop]
    omega
  have hinner : at' + (data.take k).length ≤ buffer.length := by omega
  refine List.ext_getElem? fun i => ?_
  rw [getElem?_overwrite (by rw [length_overwrite hinner]; omega), getElem?_overwrite hinner,
    getElem?_overwrite h, hfront, hback]
  by_cases hlast : at' + data.length - k ≤ i ∧ i < at' + data.length - k + k
  · rw [if_pos hlast, if_pos (by omega), List.getElem?_drop]
    congr 1
    omega
  · rw [if_neg hlast]
    by_cases hfirst : at' ≤ i ∧ i < at' + k
    · rw [if_pos hfirst, if_pos (by omega), List.getElem?_take, if_pos (by omega)]
    · rw [if_neg hfirst, if_neg (by omega)]

/-- The same copy again changes nothing. -/
theorem overwrite_twice (h : at' + data.length ≤ buffer.length) :
    overwrite (overwrite buffer at' data) at' data = overwrite buffer at' data := by
  have hends := overwrite_ends h (Nat.le_refl _) (Nat.le_add_right _ _)
  rwa [List.take_length, Nat.sub_self, List.drop_zero, Nat.add_sub_cancel] at hends

/-- What is written behind a text comes after it. -/
theorem prefix_overwrite {buffer text data : Bytes} (h : text <+: buffer)
    (hlen : text.length + data.length ≤ buffer.length) :
    text ++ data <+: overwrite buffer text.length data := by
  obtain ⟨rest, rfl⟩ := h
  rw [overwrite, List.take_left, ← List.append_assoc]
  exact List.prefix_append _ _

end Kotatsu.Core
