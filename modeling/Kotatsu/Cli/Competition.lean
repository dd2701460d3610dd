import Kotatsu.Cli.Names

/-!
# Options that compete for an element

The check of a declaration compares names as they are spelled, and the table also reads a
name that begins with a slash behind a dash. Here is when the table reads an element a name
is given by as the option of that name: not as `"--"`, and when no name with a slash, and no
option that needs fewer values, takes the element from it.
-/

namespace Kotatsu.Cli

open Kotatsu.Core Kotatsu.Cli.Table

namespace Builder

/-- An iterator of a command's table at an element, not behind a `"--"`. -/
structure At (b : Builder) (e : Bytes) (it : ParseIter) : Prop where
  table : it.table = b.table
  options : it.options = b.parseOptions
  live : it.done = false
  before : it.pastDashDash = false
  element : it.args[it.index]? = some e
  counted : it.args.length + 256 ≤ 2 ^ 32

/-- An element gives an option by its name: it is the name, or the name and a value that
begins no longer name. -/
def Gives (b : Builder) (o : NamedOption) (e : Bytes) : Prop :=
  if o.kind.takesJoined = true then
    o.name <+: e ∧ ∀ p ∈ b.named, p.name <+: e → p.name.length ≤ o.name.length
  else e = o.name

instance (b : Builder) (o : NamedOption) (e : Bytes) : Decidable (b.Gives o e) :=
  inferInstanceAs (Decidable (ite _ _ _))

/-- A result reads element `index` as option `k` under its name, or says that the values it
takes are missing. -/
inductive ReadAs (size index k : Nat) (o : NamedOption) : Result → Prop
  | read {r : ParsedArg} (id : r.id = k + 3) (spelling : r.spelling = o.name)
      (at_index : r.index = index) (next : r.nextIndex = index + 1 + o.needs) :
      ReadAs size index k o (.ok r)
  | missing {error : Error} (kind : error.kind = .missingValue)
      (short : size < index + 1 + o.needs) : ReadAs size index k o (.error error)

/-- The table reads an element as option `k` wherever it stands before a `"--"`. -/
def Reads (b : Builder) (k : Nat) (o : NamedOption) (e : Bytes) : Prop :=
  ∀ it, b.At e it → ReadAs it.args.length it.index k o it.advance.current

/-- Nothing takes an element from option `k`. -/
structure Clear (b : Builder) (k : Nat) (o : NamedOption) (e : Bytes) : Prop where
  /-- It does not end the options. -/
  option : e ≠ dashDash
  /-- A name with a slash that it begins with behind a dash is shorter, or comes later. -/
  slash : ∀ j p x, b.named[j]? = some p → j ≠ k → p.name = slashByte :: x →
    dashByte :: x <+: e → p.Fits e →
    p.name.length < o.name.length ∨ p.name.length = o.name.length ∧ k < j
  /-- An option that answers to it needs no fewer values. -/
  values : ∀ j p, b.named[j]? = some p → j ≠ k → p.Answers e → p.Fits e → o.needs ≤ p.needs

variable {b : Builder} {k : Nat} {o : NamedOption} {e : Bytes}

theorem Gives.name (h : b.Gives o e) : o.name <+: e := by
  unfold Gives at h
  split at h
  · exact h.1
  · rw [h]

theorem Gives.fits (h : b.Gives o e) : o.Fits e := by
  unfold Gives at h
  split at h
  · next hjoined => exact .inl hjoined
  · exact .inr (by rw [h])

/-- Of the names an element begins with, its option's is the longest. -/
theorem Gives.longest (h : b.Gives o e) {p : NamedOption} (hp : p ∈ b.named)
    (hname : p.name <+: e) : p.name.length ≤ o.name.length := by
  unfold Gives at h
  split at h
  · exact h.2 p hp hname
  · exact h ▸ hname.length_le

theorem Gives.take_name (h : b.Gives o e) : e.take o.name.length = o.name :=
  (List.prefix_iff_eq_take.mp h.name).symm

/-- A step is what an iterator makes of an element that ends no options. -/
theorem At.advance {it : ParseIter} (h : b.At e it) (hne : e ≠ dashDash) :
    it.advance = it.deliver (parseStep b.table { list := it.args } it.index b.parseOptions) := by
  obtain ⟨hlt, hget⟩ := List.getElem?_eq_some_iff.mp h.element
  have helement : it.element = e := by
    rw [ParseIter.element, List.getD_eq_getElem?_getD, h.element, Option.getD_some]
  have hdash : it.atDashDash = false := by
    rw [ParseIter.atDashDash, helement, decide_eq_false hne, Bool.and_false]
  rw [ParseIter.advance, if_neg (by rw [h.live]; exact Bool.false_ne_true), if_pos hlt,
    if_neg (by rw [hdash]; exact Bool.false_ne_true),
    if_neg (by rw [h.before]; exact Bool.false_ne_true), ParseIter.option,
    if_neg (by rw [h.options]; exact Bool.false_ne_true), h.table, h.options]

theorem At.args {it : ParseIter} (h : b.At e it) :
    it.index < ({ list := it.args } : Args).size ∧
      ({ list := it.args } : Args).size = it.args.length ∧
      (({ list := it.args } : Args).at' it.index).text = e := by
  obtain ⟨hlt, hget⟩ := List.getElem?_eq_some_iff.mp h.element
  have hcounted := h.counted
  have hsize : ({ list := it.args } : Args).size = it.args.length :=
    u32_of_lt (show it.args.length < 2 ^ 32 by omega)
  have hne : it.index ≠ 2 ^ 32 - 1 := by omega
  refine ⟨hsize ▸ hlt, hsize, ?_⟩
  rw [Args.at', if_neg hne]
  show it.args.getD it.index [] = e
  rw [List.getD_eq_getElem?_getD, h.element, Option.getD_some]

/-- The option that reads the element is the result. -/
theorem At.current_best {it : ParseIter} (h : b.At e it) (hne : e ≠ dashDash) (hsound : b.Sound)
    (hbest : b.Best { list := it.args } it.index k o) :
    ∃ values, it.advance.current = .ok { o.parsed it.index k e values with
      nextIndex := it.index + 1 + o.needs } := by
  obtain ⟨hindex, hsize, htext⟩ := h.args
  have hcounted := h.counted
  obtain ⟨values, hstep⟩ := hbest.parseStep hsound hindex (by omega)
  refine ⟨values, ?_⟩
  rw [h.advance hne, hstep, htext]
  rfl

/-- An option nothing takes the element from reads it, when its values are there. -/
theorem Clear.best (h : b.Clear k o e) (hsound : b.Sound) (hnodup : b.names.Nodup)
    (ho : b.named[k]? = some o) (hgives : b.Gives o e) {args : Args} {index : Nat}
    (htext : (args.at' index).text = e) (hvalues : index + 1 + o.needs ≤ args.size) :
    b.Best args index k o := by
  obtain ⟨hchecked, -⟩ := hsound o (List.mem_of_getElem? ho)
  refine ⟨ho, ⟨htext ▸ hchecked.answers_iff.mpr (.inl hgives.name), htext ▸ hgives.fits, hvalues⟩,
    fun j p hp hne htakes => ?_⟩
  obtain ⟨hchecked', -⟩ := hsound p (List.mem_of_getElem? hp)
  have hanswers : p.Answers e := htext ▸ htakes.answers
  obtain hname | ⟨x, hx, hdash⟩ := hchecked'.answers_iff.mp hanswers
  · refine .inl (lt_of_le_of_ne (hgives.longest (List.mem_of_getElem? hp) hname) fun heq => hne ?_)
    -- two names of one length that begin one element are the same
    have hsame : p.name = o.name := by
      rw [List.prefix_iff_eq_take.mp hname, List.prefix_iff_eq_take.mp hgives.name, heq]
    have hj : b.names[j]? = some o.name := by
      rw [names, List.getElem?_map, hp, Option.map_some, hsame]
    have hk : b.names[k]? = some o.name := by rw [names, List.getElem?_map, ho, Option.map_some]
    obtain ⟨hlt, -⟩ := List.getElem?_eq_some_iff.mp hj
    exact (List.getElem?_inj hlt hnodup).mp (hj.trans hk.symm)
  · exact h.slash j p x hp hne hx hdash (htext ▸ htakes.fits)

/-- The option nothing takes the element from reads it, or misses its values. -/
theorem Clear.reads (h : b.Clear k o e) (hsound : b.Sound) (hnodup : b.names.Nodup)
    (ho : b.named[k]? = some o) (hgives : b.Gives o e) : b.Reads k o e := by
  intro it hat
  obtain ⟨hindex, hsize, htext⟩ := hat.args
  have hcounted := hat.counted
  obtain hshort | hvalues := Nat.lt_or_ge it.args.length (it.index + 1 + o.needs)
  · obtain ⟨hchecked, -⟩ := hsound o (List.mem_of_getElem? ho)
    have hanswers : o.Answers e := hchecked.answers_iff.mpr (.inl hgives.name)
    have hstep := parseStep_misses hsound hindex (by omega) ho (htext ▸ hanswers)
      (htext ▸ hgives.fits) ?_
    · rw [hat.advance h.option, ParseIter.deliver]
      simp only [hstep, if_true]
      exact .missing rfl hshort
    · intro p hp htakes
      obtain ⟨j, hj⟩ := List.getElem?_of_mem hp
      have hvalues := htakes.values
      rw [hsize] at hvalues
      by_cases hjk : j = k
      · subst hjk
        obtain rfl := Option.some.inj (hj.symm.trans ho)
        omega
      · have := h.values j p hj hjk (htext ▸ htakes.answers) (htext ▸ htakes.fits)
        omega
  · obtain ⟨values, hcurrent⟩ := hat.current_best h.option hsound
      (h.best hsound hnodup ho hgives htext (hsize ▸ hvalues))
    rw [hcurrent]
    exact .read rfl hgives.take_name rfl rfl

/-- The element with `n` more behind it. -/
def elementAt (b : Builder) (e : Bytes) (n : Nat) : ParseIter :=
  b.table.parse (e :: List.replicate n []) b.parseOptions

theorem elementAt_at (b : Builder) (e : Bytes) {n : Nat} (hn : n < 256) :
    b.At e (b.elementAt e n) := by
  refine ⟨rfl, rfl, rfl, rfl, rfl, ?_⟩
  show (e :: List.replicate n []).length + 256 ≤ 2 ^ 32
  rw [List.length_cons, List.length_replicate]
  omega

theorem elementAt_takes {n : Nat} (hn : n < 256) {p : NamedOption} (hanswers : p.Answers e)
    (hfits : p.Fits e) (hneeds : p.needs ≤ n) :
    p.Takes { list := (b.elementAt e n).args } (b.elementAt e n).index := by
  obtain ⟨-, hsize, htext⟩ := (b.elementAt_at e hn).args
  refine ⟨htext.symm ▸ hanswers, htext.symm ▸ hfits, ?_⟩
  rw [hsize]
  show 0 + 1 + p.needs ≤ (e :: List.replicate n []).length
  rw [List.length_cons, List.length_replicate]
  omega

/-- An option the table reads an element as is the one that reads it, with whatever behind
it lets some option take it. -/
theorem Reads.best (h : b.Reads k o e) (hsound : b.Sound) (hne : e ≠ dashDash) {n : Nat}
    (hn : n < 256) {p : NamedOption} (hp : p ∈ b.named) (hanswers : p.Answers e)
    (hfits : p.Fits e) (hneeds : p.needs ≤ n) :
    ∃ o', b.Best { list := (b.elementAt e n).args } (b.elementAt e n).index k o' := by
  have hat := b.elementAt_at e hn
  obtain ⟨hindex, hsize, -⟩ := hat.args
  have hcounted := hat.counted
  obtain ⟨k', o', hbest⟩ := exists_best hsound hindex (by omega)
    ⟨p, hp, elementAt_takes hn hanswers hfits hneeds⟩
  obtain ⟨values, hcurrent⟩ := hat.current_best hne hsound hbest
  have hread := h _ hat
  rw [hcurrent] at hread
  cases hread with
  | read id =>
    have hid : k' + 3 = k + 3 := id
    obtain rfl : k' = k := by omega
    exact ⟨o', hbest⟩

/-- No option reads `"--"`. -/
theorem Reads.ne_dashDash (h : b.Reads k o e) : e ≠ dashDash := by
  rintro rfl
  have hread := h _ (b.elementAt_at dashDash (Nat.zero_lt_succ 255))
  have hcurrent : ∃ r, (b.elementAt dashDash 0).advance.current = .ok r ∧ r.id ≠ k + 3 := by
    have hadvance : (b.elementAt dashDash 0).advance = if b.rest.isSome = true
        then (b.elementAt dashDash 0).packed else (b.elementAt dashDash 0).skipped.positional := rfl
    rw [hadvance]
    split
    · refine ⟨_, rfl, ?_⟩
      show b.table.inputOptionId ≠ k + 3
      have hinput : b.table.inputOptionId = 2 := b.gather_options.2
      omega
    · exact ⟨{}, rfl, by show 0 ≠ k + 3; omega⟩
  obtain ⟨r, hr, hid⟩ := hcurrent
  rw [hr] at hread
  cases hread with
  | read id => exact hid id

/-- An option the table reads an element as has nothing in its way. -/
theorem Reads.clear (h : b.Reads k o e) (hsound : b.Sound) (ho : b.named[k]? = some o)
    (hgives : b.Gives o e) : b.Clear k o e := by
  have hne := h.ne_dashDash
  obtain ⟨hchecked, -⟩ := hsound o (List.mem_of_getElem? ho)
  have hanswers : o.Answers e := hchecked.answers_iff.mpr (.inl hgives.name)
  refine ⟨hne, fun j p x hp hjk hx hdash hfits => ?_, fun j p hp hjk hp' hfits => ?_⟩
  · obtain ⟨hchecked', -⟩ := hsound p (List.mem_of_getElem? hp)
    have hp' : p.Answers e := hchecked'.answers_iff.mpr (.inr ⟨x, hx, hdash⟩)
    obtain ⟨o', hbest⟩ := @Reads.best b k o e h hsound hne 255 (by decide) o
      (List.mem_of_getElem? ho) hanswers hgives.fits (Nat.le_of_lt_succ o.needs_lt)
    obtain rfl := Option.some.inj (hbest.named.symm.trans ho)
    exact hbest.best j p hp hjk
      (elementAt_takes (by decide) hp' hfits (Nat.le_of_lt_succ p.needs_lt))
  · by_contra hlt
    obtain ⟨o', hbest⟩ := h.best hsound hne p.needs_lt (List.mem_of_getElem? hp) hp' hfits le_rfl
    obtain rfl := Option.some.inj (hbest.named.symm.trans ho)
    have hvalues := hbest.takes.values
    rw [(b.elementAt_at e p.needs_lt).args.2.1] at hvalues
    have hvalues : 0 + 1 + o'.needs ≤ (e :: List.replicate p.needs []).length := hvalues
    rw [List.length_cons, List.length_replicate] at hvalues
    omega

end Builder

/-- The table reads an element that gives an option of an accepted declaration by its name
as that option exactly when nothing takes the element from it. -/
theorem reads_iff_clear {fields : List Field} (hcheck : checkDeclaration fields = .ok ())
    (hshort : ∀ o ∈ (Builder.build fields).named, o.name.length < 2 ^ 32) {k : Nat}
    {o : NamedOption} {e : Bytes} (ho : (Builder.build fields).named[k]? = some o)
    (hgives : (Builder.build fields).Gives o e) :
    (Builder.build fields).Reads k o e ↔ (Builder.build fields).Clear k o e := by
  obtain ⟨hnodup, hchecked⟩ := Builder.build_names hcheck
  have hsound : (Builder.build fields).Sound := fun p hp => ⟨hchecked p hp, hshort p hp⟩
  exact ⟨fun hreads => hreads.clear hsound ho hgives,
    fun hclear => hclear.reads hsound hnodup ho hgives⟩

/-- A flag `/n`, and then a flag `-n`. -/
def slashFields : List Field :=
  [.arg { declaredName := ascii "first", spec := { names := [ascii "/n"] }, value := .boolean },
    .arg { declaredName := ascii "second", spec := { names := [ascii "-n"] }, value := .boolean }]

/-- The flag `-n` as the table has it. -/
def dashFlag : NamedOption :=
  { name := ascii "-n", kind := .flag, target := .arg 1, proper := .flag }

/-- The declaration of `/n` and `-n` is accepted, and `-n` is read as `/n`. -/
theorem slashFields_compete : checkDeclaration slashFields = .ok () ∧
    (Builder.build slashFields).named[1]? = some dashFlag ∧
    (Builder.build slashFields).Gives dashFlag (ascii "-n") ∧
    ¬ (Builder.build slashFields).Reads 1 dashFlag (ascii "-n") := by
  refine ⟨by decide, rfl, by decide, fun hreads => ?_⟩
  have hread := hreads _ (Builder.elementAt_at _ (ascii "-n") (Nat.zero_lt_succ 255))
  have hid : ∃ r, ((Builder.build slashFields).elementAt (ascii "-n") 0).advance.current = .ok r ∧
      r.id = 3 := ⟨_, rfl, rfl⟩
  obtain ⟨r, hr, hid⟩ := hid
  rw [hr] at hread
  cases hread with
  | read id => exact absurd (hid.symm.trans id) (by decide)

/-- The flag `/n` of the same declaration is read as itself, behind a slash. -/
theorem reads_iff_clear_slash :
    (Builder.build slashFields).Reads 0 { dashFlag with name := ascii "/n", target := .arg 0 }
        (ascii "/n") ↔
      (Builder.build slashFields).Clear 0 { dashFlag with name := ascii "/n", target := .arg 0 }
        (ascii "/n") :=
  reads_iff_clear (by decide) (by decide) rfl (by decide)

end Kotatsu.Cli
