/-
  SystemZ.Proofs.Writing
  ──────────────────────
  **A REPORT THAT FAILS LEAVES THE BEGINNING OF ITS TEXT.**

  Nothing is asked of the device but that it takes bytes in order: a text that
  goes through is taken whole, and of one that fails only a beginning is.
  Then a report goes through exactly if its whole text has been taken.  If it
  fails, the pieces before the failing one have gone through, the device is
  left as the failing one left it, and what it holds of the report is the
  beginning of its text.

  How the text is cut into pieces plays no part in this.  An emission that is
  put together in loops sends what its parts send, one after the other, and
  its failure comes back with the context wherever in it that is given; so
  the tables are printed as if their pieces were sent by one loop.

  Main results:
    `writePieces_cases`           all pieces go through, or one is the last
    `leavesPrefix_writePieces`    what a report leaves behind
    `runOn_forM_send`             sending in an emission is writing pieces
    `RankedModel.runOn_print`, `Stratification.runOn_print`
                                  what the tables are printed as
    `failed_reports_leave_prefixes`
-/
import SystemZ.Proofs.Exceptionality
import SystemZ.Report.RankedModel

namespace SystemZ

/-! ## §1. Devices that take bytes in order. -/

namespace Device

variable {σ ε : Type} [Device σ ε]

/-- The device takes bytes in order: all of a text, or a beginning and then it
fails. -/
structure InOrder (σ : Type) {ε : Type} [Device σ ε] : Prop where
  taken_of_ok : ∀ (s t : σ) (text : String), write s text = (t, none) →
    taken t = taken s ++ text.toUTF8
  taken_of_failed : ∀ (s t : σ) (text : String) (cause : ε),
    write s text = (t, some cause) → ∃ n, n < text.utf8ByteSize ∧
      taken t = taken s ++ text.toUTF8.extract 0 n

/-- All pieces go through, one after the other. -/
inductive Accepts : σ → List String → σ → Prop
  | nil (s : σ) : Accepts s [] s
  | cons {s t u : σ} {piece : String} {pieces : List String}
      (h : write s piece = (t, none)) (hrest : Accepts t pieces u) :
      Accepts s (piece :: pieces) u

/-- Pieces that go through are taken whole. -/
theorem Accepts.taken_eq (hσ : InOrder σ) {s t : σ} {pieces : List String}
    (h : Accepts s pieces t) :
    taken t = taken s ++ (String.join pieces).toUTF8 := by
  induction h with
  | nil s => simp
  | cons h _ ih =>
      rw [ih, hσ.taken_of_ok _ _ _ h]
      simp [ByteArray.append_assoc]

end Device

/-! ## §2. Reports. -/

section Reports

open Device

variable {σ ε : Type} [Device σ ε] {context : String} {s : σ}
  {pieces : List String}

/-- **Either all pieces go through, or the first failing one is the last that
is sent**, and the device is left as that one left it. -/
theorem writePieces_cases (context : String) (s : σ) (pieces : List String) :
    ((writePieces context s pieces).2 = .ok () ∧
        Accepts s pieces (writePieces context s pieces).1) ∨
      ∃ sent piece rest u cause, pieces = sent ++ piece :: rest ∧
        Accepts s sent u ∧
        Device.write u piece =
          ((writePieces context s pieces).1, some cause) ∧
        (writePieces context s pieces).2 = .error ⟨context, cause⟩ := by
  induction pieces generalizing s with
  | nil => exact .inl ⟨rfl, .nil s⟩
  | cons piece pieces ih =>
      unfold writePieces
      cases h : Device.write s piece with
      | mk t failure =>
          cases failure with
          | none =>
              rcases ih t with ⟨hok, haccepts⟩ |
                ⟨sent, last, rest, u, cause, hsplit, haccepts, hlast, herr⟩
              · exact .inl ⟨hok, .cons h haccepts⟩
              · refine .inr ⟨piece :: sent, last, rest, u, cause, ?_,
                  .cons h haccepts, hlast, herr⟩
                rw [hsplit, List.cons_append]
          | some cause =>
              exact .inr ⟨[], piece, pieces, s, cause, rfl, .nil s, h, rfl⟩

/-- What a report leaves behind on a device, `text` being the whole of it. -/
structure LeavesPrefix (context : String) (text : ByteArray)
    (pieces : List String) (s : σ)
    (outcome : σ × Except (ReportError ε) Unit) : Prop where
  /-- It goes through exactly if the whole text has been taken. -/
  ok_iff : outcome.2 = .ok () ↔ taken outcome.1 = taken s ++ text
  /-- A failure comes with the context. -/
  context_of_error : ∀ e, outcome.2 = .error e → e.context = context
  /-- What has been taken is a beginning of the text. -/
  taken_eq : ∃ n, n ≤ text.size ∧
    taken outcome.1 = taken s ++ text.extract 0 n
  /-- Nothing is sent after the first failure. -/
  stops : (outcome.2 = .ok () ∧ Accepts s pieces outcome.1) ∨
    ∃ sent piece rest u cause, pieces = sent ++ piece :: rest ∧
      Accepts s sent u ∧ Device.write u piece = (outcome.1, some cause) ∧
      outcome.2 = .error ⟨context, cause⟩

/-- A beginning of a text that ends inside one of its pieces. -/
theorem extract_join {sent rest : List String} {piece : String} {n : Nat}
    (hn : n ≤ piece.utf8ByteSize) :
    (String.join (sent ++ piece :: rest)).toUTF8.extract 0
        ((String.join sent).utf8ByteSize + n) =
      (String.join sent).toUTF8 ++ piece.toUTF8.extract 0 n := by
  have hpast : n - piece.toByteArray.size = 0 := by
    rw [String.size_toByteArray]
    omega
  simp only [String.toUTF8_eq_toByteArray, String.join_append,
    String.join_cons, String.toByteArray_append]
  rw [← String.size_toByteArray,
    ByteArray.extract_eq_extract_append_extract
      (String.join sent).toByteArray.size (Nat.zero_le _)
      (Nat.le_add_right _ n),
    ByteArray.extract_append_eq_left rfl]
  -- The second part begins where the pieces before it end.
  show _ ++ ByteArray.extract _ ((String.join sent).toByteArray.size + 0)
    ((String.join sent).toByteArray.size + n) = _
  rw [ByteArray.extract_append_size_add, ByteArray.extract_append, hpast,
    Nat.zero_sub, ByteArray.extract_same, ByteArray.append_empty]

/-- A text that has one piece more is longer. -/
theorem size_join_lt (sent rest : List String) {piece : String} {n : Nat}
    (hn : n < piece.utf8ByteSize) :
    (String.join sent).utf8ByteSize + n <
      (String.join (sent ++ piece :: rest)).toUTF8.size := by
  rw [String.toUTF8_eq_toByteArray, String.size_toByteArray,
    String.join_append, String.join_cons, String.utf8ByteSize_append,
    String.utf8ByteSize_append]
  omega

/-- **A report leaves a beginning of its text**, and the whole of it exactly
if it goes through. -/
theorem leavesPrefix_writePieces (hσ : InOrder σ) (context : String) (s : σ)
    (pieces : List String) :
    LeavesPrefix context (String.join pieces).toUTF8 pieces s
      (writePieces context s pieces) := by
  have hcases := writePieces_cases context s pieces
  generalize writePieces context s pieces = outcome at hcases ⊢
  rcases hcases with ⟨hok, haccepts⟩ |
    ⟨sent, piece, rest, u, cause, hsplit, haccepts, hlast, herr⟩
  · have htaken := haccepts.taken_eq hσ
    refine ⟨⟨fun _ => htaken, fun _ => hok⟩, ?_, ⟨_, Nat.le_refl _, ?_⟩,
      .inl ⟨hok, haccepts⟩⟩
    · intro e he
      rw [hok] at he
      cases he
    · rw [htaken, ByteArray.extract_zero_size]
  · obtain ⟨n, hn, htaken⟩ := hσ.taken_of_failed _ _ _ _ hlast
    have hlt := size_join_lt sent rest hn
    -- What the failing piece left behind it ends inside this piece.
    have hbegun : taken outcome.1 = taken s ++
        (String.join pieces).toUTF8.extract 0
          ((String.join sent).utf8ByteSize + n) := by
      rw [hsplit, extract_join (Nat.le_of_lt hn), htaken,
        haccepts.taken_eq hσ, ByteArray.append_assoc]
    rw [← hsplit] at hlt
    refine ⟨⟨?_, ?_⟩, ?_, ⟨_, Nat.le_of_lt hlt, hbegun⟩,
      .inr ⟨sent, piece, rest, u, cause, hsplit, haccepts, hlast, herr⟩⟩
    · intro hok
      rw [herr] at hok
      cases hok
    · intro hwhole
      rw [hbegun, ByteArray.append_right_inj] at hwhole
      have hsize := congrArg ByteArray.size hwhole
      rw [ByteArray.size_extract] at hsize
      omega
    · intro e he
      rw [herr] at he
      cases he
      rfl

theorem leavesPrefix_of_join_eq (hσ : InOrder σ) (context : String) (s : σ)
    {text : String} (h : String.join pieces = text) :
    LeavesPrefix context text.toUTF8 pieces s
      (writePieces context s pieces) := by
  rw [← h]
  exact leavesPrefix_writePieces hσ context s pieces

end Reports

/-! ## §3. Emissions. -/

namespace Emission

variable {σ ε α β : Type} {s t : σ} {x : Emission σ ε α}
  {f : α → Emission σ ε β}

/-- What comes next depends on how the first has ended. -/
theorem runOn_bind {r : Except ε α} (h : x.runOn s = (t, r)) :
    (x >>= f).runOn s = (ExceptT.bindCont f r t).swap := by
  have hx : x.run.run s = (r, t) := congrArg Prod.swap h
  show (ExceptT.bindCont f (x.run.run s).1 (x.run.run s).2).swap = _
  rw [hx]

theorem runOn_bind_of_ok {a : α} (h : x.runOn s = (t, .ok a)) :
    (x >>= f).runOn s = (f a).runOn t := runOn_bind h

/-- A failure is the end. -/
theorem runOn_bind_of_error {e : ε} (h : x.runOn s = (t, .error e)) :
    (x >>= f).runOn s = (t, .error e) := runOn_bind h

theorem run_withContext (context : String) (x : Emission σ ε α) :
    (withContext context x).run =
      Except.mapError (ReportError.mk context) <$> x.run := rfl

theorem runOn_withContext (context : String) (x : Emission σ ε α) (s : σ) :
    (withContext context x).runOn s =
      (x.runOn s).map id (Except.mapError (ReportError.mk context)) := rfl

/-- A context may as well be given to the parts. -/
theorem withContext_bind (context : String) :
    withContext context (x >>= f) =
      withContext context x >>= fun a => withContext context (f a) := by
  apply ExceptT.ext
  rw [run_withContext, ExceptT.run_bind, ExceptT.run_bind, run_withContext,
    map_bind, bind_map_left]
  refine bind_congr fun r => ?_
  cases r <;> rfl

theorem withContext_forM (context : String) (l : List β)
    (f : β → Emission σ ε Unit) :
    withContext context (forM l f) =
      forM l fun b => withContext context (f b) := by
  induction l with
  | nil => rfl
  | cons b l ih => rw [List.forM_cons, List.forM_cons, withContext_bind, ih]

/-- A loop in a loop goes through the parts of all elements. -/
theorem forM_flatMap {γ : Type} (l : List β) (parts : β → List γ)
    (f : γ → Emission σ ε Unit) :
    forM (l.flatMap parts) f = forM l fun b => forM (parts b) f := by
  induction l with
  | nil => rfl
  | cons b l ih =>
      rw [List.flatMap_cons, List.forM_append, List.forM_cons, ih]

section Sending

variable [Device σ ε] {text : String}

theorem runOn_send_of_ok (h : Device.write s text = (t, none)) :
    (send text).runOn s = (t, .ok ()) := by
  simp [runOn, send, StateT.run, h]

theorem runOn_send_of_failed {cause : ε}
    (h : Device.write s text = (t, some cause)) :
    (send text).runOn s = (t, .error cause) := by
  simp [runOn, send, StateT.run, h]

/-- **Sending one text after the other is writing them as pieces.** -/
theorem runOn_forM_send (context : String) (pieces : List String) (s : σ) :
    (withContext context (forM pieces send)).runOn s =
      writePieces context s pieces := by
  induction pieces generalizing s with
  | nil => rfl
  | cons piece pieces ih =>
      rw [List.forM_cons, withContext_bind]
      unfold writePieces
      cases h : Device.write s piece with
      | mk t failure =>
          cases failure with
          | none =>
              have hsent : (withContext context (send piece)).runOn s =
                  (t, .ok ()) := by
                rw [runOn_withContext, runOn_send_of_ok h]
                rfl
              rw [runOn_bind_of_ok hsent]
              exact ih t
          | some cause =>
              apply runOn_bind_of_error
              rw [runOn_withContext, runOn_send_of_failed h]
              rfl

end Sending

end Emission

/-- The texts of two lists agree if those of their parts do. -/
theorem join_flatMap_congr {α : Type} {f g : α → List String} (l : List α)
    (h : ∀ a, String.join (f a) = String.join (g a)) :
    String.join (l.flatMap f) = String.join (l.flatMap g) := by
  induction l with
  | nil => rfl
  | cons a l ih =>
      rw [List.flatMap_cons, List.flatMap_cons, String.join_append,
        String.join_append, h, ih]

/-- Texts that are cut into pieces are still the same text. -/
theorem join_flatMap_cut {cut : String → List String}
    (hcut : ∀ text, String.join (cut text) = text) (texts : List String) :
    String.join (texts.flatMap cut) = String.join texts := by
  rw [join_flatMap_congr (g := fun text => [text]) texts]
  · rw [List.flatMap_singleton']
  · intro text
    simp [hcut]

section Printing

variable {σ ε : Type} [Device σ ε]

namespace RankedModel

/-- The pieces of a table make up its text: a line is its indentation and then
the groups. -/
theorem join_pieces (m : RankedModel) : String.join m.pieces = m.table := by
  refine join_flatMap_congr _ fun r => ?_
  rw [String.join_cons, String.join_cons, List.map_eq_flatMap]
  refine congrArg _ (join_flatMap_congr _ fun v => ?_)
  simp [line, groups, String.append_assoc]

/-- **A ranked model is printed as its pieces.** -/
theorem runOn_print (m : RankedModel) (cut : String → List String) (s : σ) :
    (m.print cut).runOn s =
      writePieces "while writing a ranked model" s (m.pieces.flatMap cut) := by
  rw [← Emission.runOn_forM_send]
  refine congrArg (Emission.runOn · s) ?_
  rw [pieces, List.flatMap_assoc, Emission.forM_flatMap,
    Emission.withContext_forM]
  refine congrArg (forM m.ranksInUse) (funext fun r => ?_)
  rw [List.flatMap_cons, List.forM_append, Emission.withContext_bind,
    List.flatMap_assoc, Emission.forM_flatMap]
  -- The header is the same on both sides, and so is each indentation.
  refine congrArg (_ >>= ·) (funext fun _ => congrArg _ ?_)
  refine congrArg (forM (m.valuationsOfRank r)) (funext fun v => ?_)
  rw [List.flatMap_cons, List.forM_append, List.flatMap_singleton]
  rfl

end RankedModel

/-- **So is a stratification**, line by line. -/
theorem Stratification.runOn_print (z : Stratification)
    (cut : String → List String) (s : σ) :
    (z.print cut).runOn s =
      writePieces "while writing a statement ranking" s
        (z.lines.flatMap cut) := by
  rw [← Emission.runOn_forM_send, lines, List.flatMap_map,
    Emission.forM_flatMap]
  rfl

end Printing

/-! ## §4. Sinks. -/

/-- **A sink takes bytes in order**, whatever room it has. -/
theorem Sink.inOrder : Device.InOrder Sink where
  taken_of_ok s t text h := by
    replace h : s.write text = (t, none) := h
    show t.taken = s.taken ++ text.toUTF8
    unfold Sink.write at h
    split at h
    · cases h
      rfl
    · split at h
      · cases h
        rfl
      · cases h
  taken_of_failed s t text cause h := by
    replace h : s.write text = (t, some cause) := h
    show ∃ n, n < text.utf8ByteSize ∧
      t.taken = s.taken ++ text.toUTF8.extract 0 n
    unfold Sink.write at h
    split at h
    · cases h
    case h_2 n _ =>
      split at h
      · cases h
      case isFalse hfull =>
        cases h
        exact ⟨n, Nat.lt_of_not_le hfull, rfl⟩

theorem Sink.write_unlimited (b : ByteArray) (text : String) :
    Device.write (Sink.mk b none) text =
      (Sink.mk (b ++ text.toUTF8) none, none) := rfl

/-- A sink without limit takes the whole text. -/
theorem Sink.writePieces_unlimited (context : String) (b : ByteArray)
    (pieces : List String) :
    writePieces context (Sink.mk b none) pieces =
      (Sink.mk (b ++ (String.join pieces).toUTF8) none, .ok ()) := by
  induction pieces generalizing b with
  | nil => simp [writePieces]
  | cons piece pieces ih =>
      unfold writePieces
      rw [Sink.write_unlimited]
      show writePieces context (Sink.mk (b ++ piece.toUTF8) none) pieces = _
      rw [ih]
      simp [ByteArray.append_assoc]

theorem Sink.writePieces_of_join_eq (context : String)
    {pieces : List String} {text : String} (h : String.join pieces = text) :
    writePieces context Sink.unlimited pieces =
      (⟨text.toUTF8, none⟩, .ok ()) := by
  show writePieces context (Sink.mk .empty none) pieces = _
  rw [Sink.writePieces_unlimited, ByteArray.empty_append, h]

theorem RankedModel.writeTo_unlimited (m : RankedModel) :
    m.writeTo Sink.unlimited = (⟨m.table.toUTF8, none⟩, .ok ()) :=
  Sink.writePieces_of_join_eq _ rfl

theorem Stratification.writeTo_unlimited (z : Stratification) :
    z.writeTo Sink.unlimited = (⟨z.table.toUTF8, none⟩, .ok ()) :=
  Sink.writePieces_of_join_eq _ rfl

/-! ## §5. The two tables. -/

/-- **A failing device is left with a beginning of the table.**  Whatever
device takes bytes in order, and whatever it holds already: writing a ranked
model or a stratification to it succeeds exactly if the whole table has been
taken, that is, what a sink without limit takes.  Otherwise the failure comes
with the context of the table, what has been taken is a beginning of it, and
nothing is sent after the first failure.  The same holds if the table is sent
in any other pieces, and if it is printed step by step, however the single
texts are cut. -/
theorem failed_reports_leave_prefixes {σ ε : Type} [Device σ ε]
    (hσ : Device.InOrder σ) (s : σ) :
    (∀ m : RankedModel, ∃ text : ByteArray,
      m.writeTo Sink.unlimited = (⟨text, none⟩, .ok ()) ∧
      LeavesPrefix "while writing a ranked model" text m.lines s
        (m.writeTo s) ∧
      (∀ pieces, String.join pieces = m.table →
        LeavesPrefix "while writing a ranked model" text pieces s
          (writePieces "while writing a ranked model" s pieces)) ∧
      ∀ cut : String → List String,
        (∀ single, String.join (cut single) = single) →
          (m.print cut).runOn Sink.unlimited = (⟨text, none⟩, .ok ()) ∧
          LeavesPrefix "while writing a ranked model" text
            (m.pieces.flatMap cut) s ((m.print cut).runOn s)) ∧
      ∀ z : Stratification, ∃ text : ByteArray,
        z.writeTo Sink.unlimited = (⟨text, none⟩, .ok ()) ∧
        LeavesPrefix "while writing a statement ranking" text z.lines s
          (z.writeTo s) ∧
        (∀ pieces, String.join pieces = z.table →
          LeavesPrefix "while writing a statement ranking" text pieces s
            (writePieces "while writing a statement ranking" s pieces)) ∧
        ∀ cut : String → List String,
          (∀ single, String.join (cut single) = single) →
            (z.print cut).runOn Sink.unlimited = (⟨text, none⟩, .ok ()) ∧
            LeavesPrefix "while writing a statement ranking" text
              (z.lines.flatMap cut) s ((z.print cut).runOn s) := by
  constructor
  · intro m
    refine ⟨m.table.toUTF8, m.writeTo_unlimited,
      leavesPrefix_writePieces hσ _ s m.lines,
      fun _ => leavesPrefix_of_join_eq hσ _ s, ?_⟩
    intro cut hcut
    have hjoin := (join_flatMap_cut hcut m.pieces).trans m.join_pieces
    rw [m.runOn_print, m.runOn_print]
    exact ⟨Sink.writePieces_of_join_eq _ hjoin,
      leavesPrefix_of_join_eq hσ _ s hjoin⟩
  · intro z
    refine ⟨z.table.toUTF8, z.writeTo_unlimited,
      leavesPrefix_writePieces hσ _ s z.lines,
      fun _ => leavesPrefix_of_join_eq hσ _ s, ?_⟩
    intro cut hcut
    have hjoin := join_flatMap_cut hcut z.lines
    rw [z.runOn_print, z.runOn_print]
    exact ⟨Sink.writePieces_of_join_eq _ hjoin,
      leavesPrefix_of_join_eq hσ _ s hjoin⟩

theorem failed_report_on_penguins_leaves_prefix :
    Device.InOrder Sink ∧ ∃ t text, penguins.stratify = .ok t ∧
      t.value.writeTo Sink.unlimited = (⟨text, none⟩, .ok ()) ∧
      (t.value.writeTo (Sink.ofRoom 20)).2 =
        .error ⟨"while writing a statement ranking", .full⟩ ∧
      (t.value.writeTo (Sink.ofRoom 20)).1.taken ≠ text ∧
      (∃ n, n ≤ text.size ∧ (t.value.writeTo (Sink.ofRoom 20)).1.taken =
        text.extract 0 n) ∧
      LeavesPrefix "while writing a statement ranking" text [t.value.table]
        (Sink.ofRoom 20) (writePieces "while writing a statement ranking"
          (Sink.ofRoom 20) [t.value.table]) ∧
      LeavesPrefix "while writing a statement ranking" text
        (t.value.lines.flatMap List.singleton) (Sink.ofRoom 20)
        ((t.value.print List.singleton).runOn (Sink.ofRoom 20)) := by
  have hrun : (penguins.stratify.map fun t =>
      (t.value.writeTo (Sink.ofRoom 20)).2) =
        .ok (.error ⟨"while writing a statement ranking", .full⟩) := by
    decide +kernel
  obtain ⟨t, ht⟩ : ∃ t, penguins.stratify = .ok t := by
    cases ht : penguins.stratify with
    | error e =>
        rw [ht] at hrun
        cases hrun
    | ok t => exact ⟨t, rfl⟩
  have hfull : (t.value.writeTo (Sink.ofRoom 20)).2 =
      .error ⟨"while writing a statement ranking", .full⟩ := by
    rw [ht] at hrun
    exact Except.ok.inj hrun
  obtain ⟨text, hall, hlines, hpieces, hprint⟩ :=
    (failed_reports_leave_prefixes Sink.inOrder (.ofRoom 20)).2 t.value
  obtain ⟨n, hn, htaken⟩ := hlines.taken_eq
  refine ⟨Sink.inOrder, t, text, ht, hall, hfull, ?_, ⟨n, hn, ?_⟩,
    hpieces _ (by simp), (hprint _ (by simp [List.singleton])).2⟩
  · intro hwhole
    have hdone := hlines.ok_iff.mpr (hwhole.trans (ByteArray.empty_append).symm)
    rw [hfull] at hdone
    cases hdone
  · exact htaken.trans ByteArray.empty_append

end SystemZ
