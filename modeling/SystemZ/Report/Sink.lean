/-
  SystemZ.Report.Sink
  ───────────────────
  **WRITING PIECE BY PIECE, UP TO THE FIRST FAILURE.**

  A device takes texts one after the other and may refuse one.  A report is
  sent to it piece by piece; the first failure ends it, and comes back with
  the context of the report.  A report that is put together from smaller ones,
  in loops and one after the other, is an emission.

  A sink is a device that takes bytes in order.  One with limited room takes
  what fits and then fails.
-/

namespace SystemZ

/-! ## §1. Devices and reports. -/

/-- A device with states `σ` that fails with values of `ε`. -/
class Device (σ : Type) (ε : outParam Type) where
  /-- Sends a text: the state after it, and the failure if there is one. -/
  write : σ → String → σ × Option ε
  /-- The bytes taken so far. -/
  taken : σ → ByteArray

/-- A failure to write a report, with what was being written. -/
structure ReportError (ε : Type) where
  context : String
  cause : ε
  deriving DecidableEq

/-- **Sends pieces one after the other, up to the first failure.** -/
def writePieces {σ ε : Type} [Device σ ε] (context : String) :
    σ → List String → σ × Except (ReportError ε) Unit
  | s, [] => (s, .ok ())
  | s, piece :: pieces =>
      match Device.write s piece with
      | (t, none) => writePieces context t pieces
      | (t, some cause) => (t, .error ⟨context, cause⟩)

/-! ## §2. Emissions. -/

/-- What is done with a device, up to the first failure. -/
abbrev Emission (σ ε : Type) := ExceptT ε (StateM σ)

namespace Emission

variable {σ ε α : Type}

/-- Sends a text. -/
def send [Device σ ε] (text : String) : Emission σ ε Unit :=
  ExceptT.mk fun s =>
    match Device.write s text with
    | (t, none) => (.ok (), t)
    | (t, some cause) => (.error cause, t)

/-- Sends a text in the pieces that it is cut into. -/
def print [Device σ ε] (cut : String → List String) (text : String) :
    Emission σ ε Unit :=
  forM (cut text) send

/-- Lets a failure come back with a context. -/
def withContext (context : String) (x : Emission σ ε α) :
    Emission σ (ReportError ε) α :=
  ExceptT.adapt (ReportError.mk context) x

/-- The device after an emission, and how that has ended. -/
def runOn (x : Emission σ ε α) (s : σ) : σ × Except ε α :=
  (x.run.run s).swap

end Emission

/-! ## §3. Sinks. -/

/-- A place that takes bytes. -/
structure Sink where
  /-- The bytes taken so far. -/
  taken : ByteArray
  /-- How many more bytes it takes, if that is limited. -/
  room : Option Nat

namespace Sink

/-- Why a sink refuses a text. -/
inductive Failure where
  /-- The room is used up. -/
  | full
  deriving DecidableEq

/-- The wording of a failure. -/
def Failure.message : Failure → String
  | full => "limit reached"

/-- A sink that takes everything. -/
def unlimited : Sink := ⟨.empty, none⟩

/-- A sink that takes `n` bytes in all. -/
def ofRoom (n : Nat) : Sink := ⟨.empty, some n⟩

/-- Writes a text: takes all of it, or what fits and then fails. -/
def write (s : Sink) (text : String) : Sink × Option Failure :=
  match s.room with
  | none => (⟨s.taken ++ text.toUTF8, none⟩, none)
  | some n =>
      if text.utf8ByteSize ≤ n then
        (⟨s.taken ++ text.toUTF8, some (n - text.utf8ByteSize)⟩, none)
      else (⟨s.taken ++ text.toUTF8.extract 0 n, some 0⟩, some .full)

instance : Device Sink Failure := ⟨write, taken⟩

end Sink

/-- A failure to write a report to a sink. -/
abbrev WriteError := ReportError Sink.Failure

/-- The wording of an error: the context, then the cause. -/
def WriteError.message (e : WriteError) : String :=
  e.context ++ ": " ++ e.cause.message

end SystemZ
