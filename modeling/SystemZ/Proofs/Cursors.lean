/-
  SystemZ.Proofs.Cursors
  ──────────────────────
  **AN ENUMERATION IS AN EXACT COUNTER, HOWEVER IT IS USED.**

  A cursor is an enumeration in use: what is still to come, and what has come.
  It can be asked for the next valuation or cloned, and the clone used on its
  own.  Whatever is done, each cursor stands where its count of valuations
  says: what has come and what is to come are the whole enumeration, cut
  there.  So nothing but the count matters, neither the clonings nor what
  other cursors were asked.

  The counter, its end and the full mask fit a word up to 63 atoms: every word
  that is computed is the number that it stands for.

  Main results:
    `StandsAt.advance`      one step keeps the place in step with the count
    `standsAt_of_mem`       so does every history
    `StandsAt.next?_eq`     the next valuation, by the digits of the count
    `enumeration_is_exact_counter`
-/
import Mathlib.Data.List.Induction
import Mathlib.Logic.Function.Iterate
import SystemZ.Proofs.ValuationOrder

namespace SystemZ

/-! ## §1. Cursors and their use. -/

/-- An enumeration in use. -/
structure Cursor where
  /-- What is still to come. -/
  behind : Valuations
  /-- What has come, the earliest first; a clone has what its original had. -/
  yielded : List Valuation

/-- A cursor before all valuations of an alphabet. -/
def Cursor.start (α : Alphabet) (complete : Bool) : Cursor :=
  ⟨α.valuations complete, []⟩

/-- The cursor after it was asked for the next valuation; at the end it stays
where it is. -/
def Cursor.advance (c : Cursor) : Cursor :=
  match c.behind.next? with
  | none => c
  | some (v, behind) => ⟨behind, c.yielded ++ [v]⟩

/-- One use of several cursors. -/
inductive Use where
  /-- The cursor at a place is asked for its next valuation. -/
  | next (i : Nat)
  /-- The cursor at a place is cloned; the clone gets the place behind all. -/
  | clone (i : Nat)

/-- The cursors after one use; a place without cursor has no effect. -/
def Use.apply : Use → List Cursor → List Cursor
  | next i, cs => cs.modify i Cursor.advance
  | clone i, cs => cs ++ cs[i]?.toList

/-- The cursors after a history of uses, which begins with a single cursor
before all valuations. -/
def cursorsAfter (α : Alphabet) (complete : Bool) (history : List Use) :
    List Cursor :=
  history.foldl (fun cs u => u.apply cs) [.start α complete]

/-! ## §2. Independence. -/

section Independence

variable {cs : List Cursor} {i j : Nat}

/-- Asking one cursor changes no other. -/
theorem Use.getElem?_apply_next (h : j ≠ i) :
    ((Use.next i).apply cs)[j]? = cs[j]? :=
  List.getElem?_modify_ne _ cs h.symm

theorem Use.getElem?_apply_next_self :
    ((Use.next i).apply cs)[i]? = cs[i]?.map Cursor.advance :=
  List.getElem?_modify_eq _ i cs

/-- Cloning changes no cursor, -/
theorem Use.getElem?_apply_clone (h : j < cs.length) :
    ((Use.clone i).apply cs)[j]? = cs[j]? :=
  List.getElem?_append_left h

/-- and the clone is as its original. -/
theorem Use.getElem?_apply_clone_length :
    ((Use.clone i).apply cs)[cs.length]? = cs[i]? := by
  rw [Use.apply, List.getElem?_append_right (Nat.le_refl _), Nat.sub_self]
  cases cs[i]? <;> rfl

/-- One use more, after a history. -/
theorem cursorsAfter_append (α : Alphabet) (complete : Bool)
    (history : List Use) (u : Use) :
    cursorsAfter α complete (history ++ [u]) =
      u.apply (cursorsAfter α complete history) := by
  rw [cursorsAfter, List.foldl_append]
  rfl

end Independence

/-! ## §3. A cursor stands where its count says. -/

/-- What has come and what is to come are the whole enumeration, and the
counter is the number of what has come. -/
structure Cursor.StandsAt (α : Alphabet) (complete : Bool) (c : Cursor)
    (k : Nat) : Prop where
  alphabet_eq : c.behind.alphabet = α
  complete_eq : c.behind.complete = complete
  length_yielded : c.yielded.length = k
  toNat_next : c.behind.next.toNat = k
  yielded_append_rest : c.yielded ++ c.behind.rest = (α.valuations complete).rest

/-- What is behind the next valuation is complete or partial as before. -/
theorem Valuations.complete_of_next? {it behind : Valuations} {v : Valuation}
    (h : it.next? = some (v, behind)) : behind.complete = it.complete := by
  unfold next? at h
  split at h
  case isTrue =>
    cases h
    rfl
  case isFalse => cases h

namespace Cursor

variable {α : Alphabet} {complete : Bool} {c c' : Cursor} {k : Nat}

theorem standsAt_start : (start α complete).StandsAt α complete 0 :=
  ⟨rfl, rfl, rfl, rfl, rfl⟩

theorem advance_of_none (h : c.behind.next? = none) : c.advance = c := by
  rw [advance, h]

theorem advance_of_some {v : Valuation} {behind : Valuations}
    (h : c.behind.next? = some (v, behind)) :
    c.advance = ⟨behind, c.yielded ++ [v]⟩ := by
  rw [advance, h]

namespace StandsAt

/-- The count is at most the number of valuations. -/
theorem le (h : c.StandsAt α complete k) : k ≤ 2 ^ α.size := by
  have hle := UInt64.le_iff_toNat_le.mp c.behind.next_le
  rwa [h.toNat_next, h.alphabet_eq, α.toNat_valuationCount,
    Nat.one_shiftLeft] at hle

theorem toNat_remaining (h : c.StandsAt α complete k) :
    c.behind.remaining.toNat = 2 ^ α.size - k := by
  rw [Valuations.toNat_remaining, h.alphabet_eq, h.toNat_next,
    Nat.one_shiftLeft]

/-- There is a next valuation exactly before the last count. -/
theorem next?_eq_none_iff (h : c.StandsAt α complete k) :
    c.behind.next? = none ↔ k = 2 ^ α.size := by
  have hle := h.le
  rw [Valuations.next?_eq_none_iff, h.toNat_remaining]
  omega

theorem exists_next?_eq_some (h : c.StandsAt α complete k)
    (hk : k < 2 ^ α.size) :
    ∃ v behind, c.behind.next? = some (v, behind) ∧ v.alphabet = α ∧
      v.trueBits.toNat = k := by
  cases hnext : c.behind.next? with
  | none =>
      rw [h.next?_eq_none_iff] at hnext
      omega
  | some r =>
      obtain ⟨v, behind⟩ := r
      obtain ⟨hα, hbits, _⟩ := Valuations.next?_eq_some hnext
      exact ⟨v, behind, rfl, hα.trans h.alphabet_eq, by
        rw [hbits, h.toNat_next]⟩

/-- **One step**: below the last count the cursor goes to the next one. -/
theorem advance (h : c.StandsAt α complete k) (hk : k < 2 ^ α.size) :
    c.advance.StandsAt α complete (k + 1) := by
  obtain ⟨v, behind, hnext, _⟩ := h.exists_next?_eq_some hk
  obtain ⟨_, _, hα, hsucc⟩ := Valuations.next?_eq_some hnext
  rw [advance_of_some hnext]
  refine ⟨hα.trans h.alphabet_eq, ?_, ?_, ?_, ?_⟩
  · rw [Valuations.complete_of_next? hnext, h.complete_eq]
  · rw [List.length_append, h.length_yielded, List.length_singleton]
  · rw [hsucc, h.toNat_next]
  · rw [← h.yielded_append_rest, Valuations.rest_of_some hnext,
      List.append_assoc, List.singleton_append]

/-- At the last count it stays. -/
theorem advance_eq (h : c.StandsAt α complete (2 ^ α.size)) : c.advance = c :=
  advance_of_none (h.next?_eq_none_iff.mpr rfl)

/-- **The count says everything about a cursor.** -/
theorem eq (h : c.StandsAt α complete k) (h' : c'.StandsAt α complete k) :
    c = c' := by
  have hnext : c.behind.next = c'.behind.next :=
    UInt64.toNat.inj (h.toNat_next.trans h'.toNat_next.symm)
  have hbehind : c.behind = c'.behind := by
    have hα := h.alphabet_eq.trans h'.alphabet_eq.symm
    have hcomplete := h.complete_eq.trans h'.complete_eq.symm
    cases hc : c.behind
    cases hc' : c'.behind
    simp only [hc, hc'] at hα hcomplete hnext
    cases hα
    cases hcomplete
    cases hnext
    rfl
  have hyielded : c.yielded = c'.yielded := by
    have hsame := h.yielded_append_rest.trans h'.yielded_append_rest.symm
    rw [hbehind] at hsame
    exact List.append_cancel_right hsame
  cases c
  cases c'
  cases hbehind
  cases hyielded
  rfl

/-- **The next valuation makes the atoms at the digits of the count true.** -/
theorem next?_eq (h : c.StandsAt α complete k) (hk : k < 2 ^ α.size)
    {l : List Atom}
    (hl : ∀ a, a ∈ l ↔ ∃ i, α.index? a = some i ∧ k.testBit i = true) :
    ∃ v behind u, c.behind.next? = some (v, behind) ∧
      Valuation.ofTrueAtoms α l = .ok u ∧ (v == u) = true := by
  obtain ⟨v, behind, hnext, hα, hbits⟩ := h.exists_next?_eq_some hk
  have hsub : ∀ a ∈ l, a ∈ α.atoms := by
    intro a ha
    obtain ⟨i, hi, _⟩ := (hl a).mp ha
    exact Alphabet.mem_of_index? hi
  obtain ⟨u, hu, hu', _, hvalue⟩ := Valuation.exists_ofTrueAtoms_eq_ok hsub
  refine ⟨v, behind, u, hnext, hu,
    Valuation.beq_iff_value.mpr ⟨hα.trans hu'.symm, ?_⟩⟩
  intro a
  rw [Bool.eq_iff_iff, hvalue a, hl a, Valuation.value_eq_true_iff, hα, hbits]

end StandsAt

/-! ## §4. Histories. -/

/-- A use keeps every cursor at some count. -/
theorem exists_standsAt_apply {cs : List Cursor}
    (h : ∀ c ∈ cs, ∃ k, c.StandsAt α complete k) (u : Use) :
    ∀ c ∈ u.apply cs, ∃ k, c.StandsAt α complete k := by
  intro c hc
  cases u with
  | next i =>
      obtain ⟨j, hj⟩ := List.mem_iff_getElem?.mp hc
      by_cases hji : j = i
      · subst hji
        rw [Use.getElem?_apply_next_self, Option.map_eq_some_iff] at hj
        obtain ⟨d, hd, rfl⟩ := hj
        obtain ⟨k, hk⟩ := h d (List.mem_of_getElem? hd)
        rcases Nat.lt_or_eq_of_le hk.le with hlt | rfl
        · exact ⟨k + 1, hk.advance hlt⟩
        · exact ⟨_, hk.advance_eq.symm ▸ hk⟩
      · rw [Use.getElem?_apply_next hji] at hj
        exact h c (List.mem_of_getElem? hj)
  | clone i =>
      rcases List.mem_append.mp hc with hc | hc
      · exact h c hc
      · rw [Option.mem_toList] at hc
        exact h c (List.mem_of_getElem? hc)

/-- So does every history. -/
theorem exists_standsAt_cursorsAfter (history : List Use) :
    ∀ c ∈ cursorsAfter α complete history,
      ∃ k, c.StandsAt α complete k := by
  induction history using List.reverseRecOn with
  | nil =>
      intro c hc
      rw [List.mem_singleton.mp hc]
      exact ⟨0, standsAt_start⟩
  | append_singleton history u ih =>
      rw [cursorsAfter_append]
      exact exists_standsAt_apply ih u

/-- **After every history each cursor stands at its count.** -/
theorem standsAt_of_mem {history : List Use}
    (hc : c ∈ cursorsAfter α complete history) :
    c.StandsAt α complete c.yielded.length := by
  obtain ⟨k, hk⟩ := exists_standsAt_cursorsAfter history c hc
  rw [hk.length_yielded]
  exact hk

/-- At the same count complete and partial enumerations have yielded equal
valuations. -/
theorem StandsAt.forall₂_yielded {b b' : Bool} (h : c.StandsAt α b k)
    (h' : c'.StandsAt α b' k) :
    List.Forall₂ (fun v w => (v == w) = true) c.yielded c'.yielded := by
  have hall := Valuations.forall₂_beq_rest α b b'
  rw [← h.yielded_append_rest, ← h'.yielded_append_rest] at hall
  have htake := List.forall₂_take k hall
  rwa [List.take_left' h.length_yielded,
    List.take_left' h'.length_yielded] at htake

/-! ## §5. Words. -/

/-- **The words of an enumeration are the numbers they stand for**: below the
last count the counter goes up by one, and with what remains it makes up the
number of valuations. -/
theorem StandsAt.toNat_words (h : c.StandsAt α complete k) :
    c.behind.next.toNat = k ∧
      (k < 2 ^ α.size → (c.behind.next + 1).toNat = k + 1) ∧
      c.behind.remaining.toNat + c.behind.next.toNat =
        α.valuationCount.toNat := by
  have hle := h.le
  refine ⟨h.toNat_next, ?_, ?_⟩
  · intro hk
    have hlt : c.behind.next < c.behind.alphabet.valuationCount := by
      rw [UInt64.lt_iff_toNat_lt, Alphabet.toNat_valuationCount,
        h.toNat_next, h.alphabet_eq, Nat.one_shiftLeft]
      exact hk
    rw [Valuations.toNat_succ hlt, h.toNat_next]
  · rw [h.toNat_remaining, h.toNat_next, α.toNat_valuationCount,
      Nat.one_shiftLeft]
    omega

end Cursor

/-- So are the words of an alphabet. -/
theorem Alphabet.toNat_words (α : Alphabet) :
    α.valuationCount.toNat = 2 ^ α.size ∧
      α.fullMask.toNat + 1 = 2 ^ α.size ∧
      ∀ a i, α.index? a = some i → (Mask.bit i).toNat = 2 ^ i := by
  have hpos : 0 < 2 ^ α.size := Nat.two_pow_pos _
  refine ⟨?_, ?_, ?_⟩
  · rw [α.toNat_valuationCount, Nat.one_shiftLeft]
  · rw [α.toNat_fullMask, Nat.one_shiftLeft]
    omega
  · intro a i hi
    rw [Mask.toNat_bit (Nat.lt_trans (α.index?_lt hi) α.size_lt),
      Nat.one_shiftLeft]

/-! ## §6. The exact counter. -/

/-- **An enumeration is an exact counter.**  After any history of requests and
clonings, a cursor that has yielded `k` valuations has `2 ^ n - k` to come, by
its length and by both bounds of its hint.  Below `2 ^ n` the next one equals
the valuation that is built from the atoms at the digits of `k`, listed in any
order and with repetitions; from then on nothing comes any more, however often
it is asked.  The count alone says what a cursor is and what it has yielded,
so a clone goes on as its original would; a request changes no other cursor.
Complete and partial enumerations yield equal valuations.  And every word that
is shifted, added or subtracted stands for the exact number. -/
theorem enumeration_is_exact_counter (α : Alphabet) (complete : Bool)
    (history : List Use) :
    (∀ c ∈ cursorsAfter α complete history, ∃ k left,
      c.yielded.length = k ∧ k ≤ 2 ^ α.size ∧
      c.behind.remaining = left ∧ c.behind.sizeHint = (left, some left) ∧
      left.toNat = 2 ^ α.size - k ∧
      (k < 2 ^ α.size → ∀ l : List Atom,
        (∀ a, a ∈ l ↔ ∃ i, α.index? a = some i ∧ k.testBit i = true) →
        ∃ v behind u, c.behind.next? = some (v, behind) ∧
          Valuation.ofTrueAtoms α l = .ok u ∧ (v == u) = true) ∧
      (k = 2 ^ α.size → ∀ j, (Cursor.advance^[j] c).behind.next? = none ∧
        (Cursor.advance^[j] c).behind.remaining = 0) ∧
      c.behind.next.toNat = k ∧
      (k < 2 ^ α.size → (c.behind.next + 1).toNat = k + 1) ∧
      left.toNat + c.behind.next.toNat = α.valuationCount.toNat) ∧
    (∀ history', ∀ c ∈ cursorsAfter α complete history,
      ∀ c' ∈ cursorsAfter α complete history',
        c.yielded.length = c'.yielded.length → c = c') ∧
    (∀ i, (∀ j, j ≠ i →
        (cursorsAfter α complete (history ++ [.next i]))[j]? =
          (cursorsAfter α complete history)[j]?) ∧
      (∀ j, j < (cursorsAfter α complete history).length →
        (cursorsAfter α complete (history ++ [.clone i]))[j]? =
          (cursorsAfter α complete history)[j]?) ∧
      (cursorsAfter α complete (history ++ [.clone i]))[
          (cursorsAfter α complete history).length]? =
        (cursorsAfter α complete history)[i]?) ∧
    (∀ b history', ∀ c ∈ cursorsAfter α complete history,
      ∀ c' ∈ cursorsAfter α b history',
        c.yielded.length = c'.yielded.length →
        List.Forall₂ (fun v w => (v == w) = true) c.yielded c'.yielded) ∧
    α.valuationCount.toNat = 2 ^ α.size ∧
    α.fullMask.toNat + 1 = 2 ^ α.size ∧
    ∀ a i, α.index? a = some i → (Mask.bit i).toNat = 2 ^ i := by
  refine ⟨?_, ?_, ?_, ?_, α.toNat_words⟩
  · intro c hc
    have hat := Cursor.standsAt_of_mem hc
    obtain ⟨hnext, hsucc, hsum⟩ := hat.toNat_words
    refine ⟨_, _, rfl, hat.le, rfl, rfl, hat.toNat_remaining, ?_, ?_, hnext,
      hsucc, hsum⟩
    · intro hk l hl
      exact hat.next?_eq hk hl
    · intro hk j
      rw [hk] at hat
      have hend := hat.next?_eq_none_iff.mpr rfl
      rw [Function.iterate_fixed hat.advance_eq]
      refine ⟨hend, UInt64.toNat.inj ?_⟩
      rw [hat.toNat_remaining, Nat.sub_self]
      rfl
  · intro history' c hc c' hc' hcount
    have hat := Cursor.standsAt_of_mem hc
    rw [hcount] at hat
    exact hat.eq (Cursor.standsAt_of_mem hc')
  · intro i
    rw [cursorsAfter_append, cursorsAfter_append]
    refine ⟨?_, ?_, Use.getElem?_apply_clone_length⟩
    · intro j hj
      exact Use.getElem?_apply_next hj
    · intro j hj
      exact Use.getElem?_apply_clone hj
  · intro b history' c hc c' hc' hcount
    have hat := Cursor.standsAt_of_mem hc
    rw [hcount] at hat
    exact hat.forall₂_yielded (Cursor.standsAt_of_mem hc')

/-- A cursor over birds and penguins is cloned after its first valuation, both
go on, and one of them runs out. -/
def cloneThenRunOut : List Use :=
  [.next 0, .clone 0, .next 1, .next 1, .next 0, .next 1, .next 1]

theorem enumeration_of_penguins_is_exact_counter :
    ∃ c ∈ cursorsAfter penguinAlphabet false cloneThenRunOut,
      ∃ d ∈ cursorsAfter penguinAlphabet false cloneThenRunOut,
        c.yielded.length = 2 ∧ c.behind.remaining.toNat = 2 ∧
        (∃ v behind u, c.behind.next? = some (v, behind) ∧
          Valuation.ofTrueAtoms penguinAlphabet [⟨"p"⟩, ⟨"p"⟩] = .ok u ∧
          (v == u) = true) ∧
        d.yielded.length = 4 ∧ d.behind.next? = none := by
  obtain ⟨c, hc, hcount⟩ : ∃ c,
      (cursorsAfter penguinAlphabet false cloneThenRunOut)[0]? = some c ∧
        c.yielded.length = 2 := ⟨_, rfl, rfl⟩
  obtain ⟨d, hd, hend⟩ : ∃ d,
      (cursorsAfter penguinAlphabet false cloneThenRunOut)[1]? = some d ∧
        d.yielded.length = 4 := ⟨_, rfl, rfl⟩
  have hp : penguinAlphabet.index? ⟨"p"⟩ = some 1 := by decide
  have hlist : ∀ a, a ∈ [(⟨"p"⟩ : Atom), ⟨"p"⟩] ↔
      ∃ i, penguinAlphabet.index? a = some i ∧ Nat.testBit 2 i = true := by
    intro a
    constructor
    · intro ha
      have hap : a = ⟨"p"⟩ := by simpa using ha
      exact ⟨1, hap ▸ hp, by decide⟩
    · intro hdigits
      obtain ⟨i, hi, hdigit⟩ := hdigits
      have hlt : i < 2 := penguinAlphabet.index?_lt hi
      have hone : i = 1 := by
        rcases Nat.lt_trichotomy i 1 with hzero | hone | htwo
        · rw [Nat.lt_one_iff.mp hzero] at hdigit
          cases hdigit
        · exact hone
        · omega
      have hap : a = ⟨"p"⟩ := Alphabet.eq_of_index? (hone ▸ hi) hp
      rw [hap]
      exact List.mem_cons_self
  have hmem := List.mem_of_getElem? hc
  have hmem' := List.mem_of_getElem? hd
  obtain ⟨hcursors, _⟩ :=
    enumeration_is_exact_counter penguinAlphabet false cloneThenRunOut
  obtain ⟨k, left, hk, _, hleft, _, hcard, hnext, _⟩ := hcursors c hmem
  obtain ⟨l, _, hl, _, _, _, _, _, hnone, _⟩ := hcursors d hmem'
  rw [hcount] at hk
  rw [hend] at hl
  subst hk
  subst hl
  exact ⟨c, hmem, d, hmem', hcount, hleft ▸ hcard, hnext (by decide) _ hlist,
    hend, (hnone rfl 0).1⟩

end SystemZ
