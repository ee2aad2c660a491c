/-
  SystemZ.Proofs.Search
  ─────────────────────
  **THE SEARCH FOR JUSTIFICATIONS, CANDIDATE BY CANDIDATE.**

  A search may go through the candidates one after another and remember the
  best so far: a hit of the size of those that are kept joins them, and a hit
  of another size is reported and takes their place.  It ends when the size of
  the candidates exceeds that of the hits.

  Candidates of one size come together and sizes grow, so hits take the place
  of others just once, at the first hit.  Then the search does what the
  justifications do: it keeps all hits of the first size that has any, reports
  that size once, and fails at the same candidate.

  Main results:
    `tryAll_eq`                going through candidates keeps those that pass
    `foldl_keep_start`         only the first hit of a size is reported
    `justifications_eq_map_tryBySize`
-/
import SystemZ.Proofs.SmallestJustifications

namespace SystemZ

namespace Justification

/-! ## §1. What a search remembers. -/

/-- The size of the hits that a search keeps, these hits, and what it has
reported. -/
structure Progress where
  best : Option Nat
  found : SortedSet KnowledgeBase
  trace : List Event

namespace Progress

/-- Before the first hit. -/
def start : Progress := ⟨none, ∅, []⟩

/-- With the hits of one size, reported once. -/
def ofHits (k : Nat) (hits : List (List Conditional)) : Progress :=
  ⟨some k, .ofList (hits.map .ofList), [.justificationFound k]⟩

/-- A hit of size `k`.  If the hits that are kept have another size, this one
is reported and takes their place. -/
def keep (k : Nat) (p : Progress) (hit : List Conditional) : Progress :=
  if p.best = some k then { p with found := p.found.insert (.ofList hit) }
  else
    ⟨some k, SortedSet.insert (.ofList hit) ∅,
      p.trace ++ [.justificationFound k]⟩

/-- The candidates of size `k`, one after another. -/
def tryAll (test : List Conditional → Except AlphabetError Bool) (k : Nat) :
    Progress → List (List Conditional) → Except AlphabetError Progress
  | p, [] => .ok p
  | p, m :: ms =>
      match test m with
      | .error e => .error e
      | .ok hit => tryAll test k (if hit then p.keep k m else p) ms

/-- The sizes, one after another, until one is greater than that of the hits
that are kept. -/
def tryBySize (test : List Conditional → Except AlphabetError Bool)
    (items : List Conditional) :
    Progress → List Nat → Except AlphabetError Progress
  | p, [] => .ok p
  | p, k :: sizes =>
      if p.best.any (· < k) then .ok p
      else
        match tryAll test k p (choose k items) with
        | .error e => .error e
        | .ok p' => tryBySize test items p' sizes

/-! ## §2. The hits that are kept. -/

variable {test : List Conditional → Except AlphabetError Bool}
  {items : List Conditional} {sizes : List Nat} {p : Progress} {k : Nat}

/-- Going through candidates is keeping those that pass. -/
theorem tryAll_eq (p : Progress) (ms : List (List Conditional)) :
    tryAll test k p ms =
      (SortedSet.tryFilterList test ms).map fun hits =>
        hits.foldl (keep k) p := by
  induction ms generalizing p with
  | nil => rfl
  | cons m ms ih =>
      rw [tryAll, SortedSet.tryFilterList]
      cases test m with
      | error e => rfl
      | ok hit =>
          show tryAll test k _ ms = _
          rw [ih]
          cases SortedSet.tryFilterList test ms with
          | error e => rfl
          | ok hits => cases hit <;> rfl

/-- Further hits of the same size are added, and not reported. -/
theorem foldl_keep_same (found : SortedSet KnowledgeBase) (trace : List Event)
    (hits : List (List Conditional)) :
    hits.foldl (keep k) ⟨some k, found, trace⟩ =
      ⟨some k, found.union (.ofList (hits.map .ofList)), trace⟩ := by
  induction hits generalizing found with
  | nil => rfl
  | cons hit hits ih =>
      have hkeep : keep k ⟨some k, found, trace⟩ hit =
          ⟨some k, found.insert (.ofList hit), trace⟩ := if_pos rfl
      rw [List.foldl_cons, hkeep, ih, List.map_cons,
        SortedSet.union_ofList_cons]

/-- **The first hit of a size is reported, the others are not.** -/
theorem foldl_keep_start (hit : List Conditional)
    (hits : List (List Conditional)) :
    (hit :: hits).foldl (keep k) start = ofHits k (hit :: hits) := by
  have hkeep : start.keep k hit = ⟨some k,
      SortedSet.insert (.ofList hit) ∅, [.justificationFound k]⟩ := rfl
  rw [List.foldl_cons, hkeep, foldl_keep_same, ofHits, List.map_cons,
    ← SortedSet.union_ofList_cons, SortedSet.empty_union]

theorem found_ofHits_ne_empty (k : Nat) {hits : List (List Conditional)}
    (hne : hits ≠ []) : (ofHits k hits).found ≠ ∅ := by
  obtain ⟨m, hm⟩ := List.exists_mem_of_ne_nil hits hne
  have hmem : SortedSet.ofList m ∈ (ofHits k hits).found :=
    SortedSet.mem_ofList.mpr (List.mem_map.mpr ⟨m, hm, rfl⟩)
  intro hempty
  rw [hempty] at hmem
  exact absurd hmem (SortedSet.not_mem_empty _)

theorem size_of_mem_found {hits : List (List Conditional)}
    {defeasible J : KnowledgeBase}
    (hhits : ∀ m ∈ hits, m ∈ choose k defeasible.toList)
    (hJ : J ∈ (ofHits k hits).found) : J.size = k := by
  obtain ⟨m, hm, rfl⟩ := List.mem_map.mp (SortedSet.mem_ofList.mp hJ)
  obtain ⟨K, _, hk, rfl⟩ := mem_choose_toList_iff.mp (hhits m hm)
  rw [SortedSet.ofList_toList, hk]

/-! ## §3. The whole search. -/

theorem tryBySize_of_best {b : Nat} (hbest : p.best = some b)
    (hsizes : ∀ k ∈ sizes, b < k) : tryBySize test items p sizes = .ok p := by
  cases sizes with
  | nil => rfl
  | cons k sizes =>
      have hlt : b < k := hsizes k List.mem_cons_self
      rw [tryBySize, hbest, Option.any_some, if_pos (decide_eq_true hlt)]

/-- **Going through all sizes ends with the hits of the first size that has
any.** -/
theorem tryBySize_start (hsizes : sizes.Pairwise (· < ·)) :
    tryBySize test items start sizes =
      (firstHits test items sizes).map fun first =>
        first.elim start fun x => ofHits x.1 x.2 := by
  induction sizes with
  | nil => rfl
  | cons k sizes ih =>
      obtain ⟨hfirst, hrest⟩ := List.pairwise_cons.mp hsizes
      rw [tryBySize, firstHits, tryAll_eq]
      cases SortedSet.tryFilterList test (choose k items) with
      | error e => rfl
      | ok hits =>
          cases hits with
          | nil => exact ih hrest
          | cons hit hits =>
              show tryBySize test items ((hit :: hits).foldl (keep k) start)
                sizes = .ok (ofHits k (hit :: hits))
              rw [foldl_keep_start]
              exact tryBySize_of_best rfl hfirst

end Progress

variable {strict defeasible : KnowledgeBase} {φ : Formula}

/-- **The search is one that goes through all candidates and keeps the hits of
the best size so far**, with its reports, and fails where that one fails. -/
theorem justifications_eq_map_tryBySize :
    justifications strict defeasible φ =
      (Progress.tryBySize (refutes strict.materialized.toList φ.negate)
        defeasible.toList .start (List.range (defeasible.size + 1))).map
          fun p => ⟨p.found, p.trace ++
            [.justificationsFound p.found.size φ defeasible.size]⟩ := by
  rw [justifications, Progress.tryBySize_start List.pairwise_lt_range]
  simp only
  cases firstHits (refutes strict.materialized.toList φ.negate)
      defeasible.toList (List.range (defeasible.size + 1)) with
  | error e => rfl
  | ok first =>
      cases first with
      | none => rfl
      | some x => rfl

end Justification

end SystemZ
