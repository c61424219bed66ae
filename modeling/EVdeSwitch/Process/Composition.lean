import EVdeSwitch.DataPlane.TableHistory
import EVdeSwitch.Process.Moves

/-!
# Composition — the engine inside the process

While the process runs, the threads of the data plane and the workers do what they can do in the
machine `engine`, and the control plane does nothing to them but replace the two tables.  So what
holds in every run of the engine holds in the process.
-/

namespace EVdeSwitch
namespace Process

open EVdeSwitch.ControlPlane
open EVdeSwitch.DataPlane
open EVdeSwitch.Io
open EVdeSwitch.Lib
open EVdeSwitch.Message
open EVdeSwitch.Utils

namespace State

variable {c : Config} {s t : State}

/-- The control plane may have replaced the tables, and nothing else. -/
def SameWork (s t : State) : Prop :=
  ∃ fdt endpoints, t.engine = { s.engine with fdt := fdt, endpoints := endpoints }

theorem SameWork.of_eq (h : t.engine = s.engine) : SameWork s t :=
  ⟨s.engine.fdt, s.engine.endpoints, h⟩

theorem SameWork.reaches (h : SameWork s t) :
    (DataPlane.engine c.threads c.pipeSlots).Reaches s.engine t.engine := by
  rcases h with ⟨fdt, endpoints, h⟩
  rw [h]
  exact Machine.Reaches.single (show (DataPlane.engine c.threads c.pipeSlots).step s.engine
    (.control fdt endpoints) = some _ from rfl)

theorem reaches_of_step {e e' : Engine} {b : EngineAction}
    (h : e.step c.threads c.pipeSlots b = some e') :
    (DataPlane.engine c.threads c.pipeSlots).Reaches e e' :=
  Machine.Reaches.single (show (DataPlane.engine c.threads c.pipeSlots).step e b = some e' from h)

/-- Whatever thread moves, the engine makes steps of its own. -/
theorem Moves.reaches {a : SwitchAction} (h : Moves c s a t) :
    (DataPlane.engine c.threads c.pipeSlots).Reaches s.engine t.engine := by
  cases h with
  | opened fd fd_data => exact SameWork.reaches ⟨s.engine.fdt, _, rfl⟩
  | bound ep => exact SameWork.reaches ⟨_, s.engine.endpoints, rfl⟩
  | received fd engine hstep => exact reaches_of_step hstep
  | worked engine _ hstep => exact reaches_of_step hstep
  | _ => exact SameWork.reaches (SameWork.of_eq rfl)

theorem Inv.reaches_step (hs : s.Inv) {a : SwitchAction} (h : s.step c a = some (.ok t)) :
    (DataPlane.engine c.threads c.pipeSlots).Reaches s.engine t.engine :=
  (hs.moves h).reaches

end State

namespace Switch

variable {c : Config} {s : State}

/-- The process has not ended, or it has; as long as it has not, its engine has got there by
itself. -/
def EngineReached (c : Config) : Switch → Prop
  | .running s => s.Inv ∧ (DataPlane.engine c.threads c.pipeSlots).Reaches Engine.start s.engine
  | .ended _ => True

theorem engineReached_step {s t : Switch} {a : SwitchAction} (hs : s.EngineReached c)
    (h : (switch c).step s a = some t) : t.EngineReached c := by
  cases s with
  | ended halt => cases h
  | running s =>
      rcases Option.map_eq_some_iff.1 h with ⟨r, hr, rfl⟩
      cases r with
      | error halt => trivial
      | ok t => exact ⟨(hs.1.step hr).inv t rfl, hs.2.trans (hs.1.reaches_step hr)⟩

/-- What the engine is in a running process is what it can become on its own. -/
theorem engine_reaches (h : (switch c).Reaches (.running (State.start c)) (.running s)) :
    (DataPlane.engine c.threads c.pipeSlots).Reaches Engine.start s.engine := by
  have hstart : EngineReached c (.running (State.start c)) :=
    ⟨State.inv_start c, Machine.Reaches.refl _⟩
  exact (h.invariant (EngineReached c) (fun _ _ _ hs hstep => engineReached_step hs hstep)
    hstart).2

/-- In the process, too, every buffer is on its way to the worker that its hash picks, with the
descriptor it was received on. -/
theorem receiptInv_of_reaches
    (h : (switch c).Reaches (.running (State.start c)) (.running s)) :
    s.engine.ReceiptInv c.threads :=
  Engine.receiptInv_of_reaches (engine_reaches h)

/-- And the table of addresses tracks a history of lookups and insertions. -/
theorem exists_tracks_of_reaches
    (h : (switch c).Reaches (.running (State.start c)) (.running s)) :
    ∃ history, MacTable.Tracks s.engine.mt history :=
  Engine.exists_tracks_of_reaches (engine_reaches h)

end Switch

end Process
end EVdeSwitch
