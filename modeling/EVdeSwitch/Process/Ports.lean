import Mathlib.Data.List.Nodup
import EVdeSwitch.Process.Moves

/-!
# Ports — the structures that know the endpoints

An endpoint is known to the list `endpoints`, to the slot of its port and, once `add_port` is
done, to the table of descriptors.  Whatever the clients and the kernel do, these agree as far as
they go: the ports are distinct, a slot in use points to the endpoint with its number, and every
entry of the table is an endpoint of the list.
-/

namespace EVdeSwitch
namespace Process

open EVdeSwitch.ControlPlane
open EVdeSwitch.DataPlane
open EVdeSwitch.Io
open EVdeSwitch.Lib
open EVdeSwitch.Message
open EVdeSwitch.Utils

namespace State

structure PortsInv (s : State) : Prop where
  inv : s.Inv
  lt_portc : ∀ ep ∈ s.engine.endpoints, ep.port < s.portc
  ports_nodup : (s.engine.endpoints.map Endpoint.port).Nodup
  slot : ∀ ep ∈ s.engine.endpoints, s.arena.port ep.port = { flag := .UP, ep := some ep }
  up : ∀ i, (s.arena.port i).flag = .UP → ∃ ep ∈ s.engine.endpoints, ep.port = i
  binding : ∀ ep, s.ctl = .binding ep → ep ∈ s.engine.endpoints
  fdt : ∀ fd ep, fdTableLookup s.engine.fdt fd = some ep →
    ep ∈ s.engine.endpoints ∧ ep.fd_data.toInt = fd

variable {c : Config} {s t : State}

theorem fdTableLookup_create (fd : Int) : fdTableLookup fdTableCreate fd = none := by
  simp [fdTableLookup, fdTableCreate]

theorem portsInv_start (c : Config) : (start c).PortsInv where
  inv := inv_start c
  lt_portc := by simp [start, Engine.start]
  ports_nodup := List.nodup_nil
  slot := by simp [start, Engine.start]
  up := by simp [start, PortArena.alloc]
  binding := by simp [start]
  fdt := by
    intro fd ep h
    have hnone : fdTableLookup (start c).engine.fdt fd = none := fdTableLookup_create fd
    simp [hnone] at h

namespace PortsInv

/-- The slots of other ports do not change. -/
theorem opened (hs : s.PortsInv) (fd_data : Fd)
    (hinv : Inv { s.setManager (s.manager.opened fd_data) with ctl := .binding ⟨s.portc, fd_data⟩ }) :
    PortsInv { s.setManager (s.manager.opened fd_data) with ctl := .binding ⟨s.portc, fd_data⟩ } := by
  have hfresh : ∀ ep ∈ s.engine.endpoints, ep.port ≠ s.portc :=
    fun ep hep => ne_of_lt (hs.lt_portc ep hep)
  refine
    { inv := hinv
      lt_portc := ?_
      ports_nodup := ?_
      slot := ?_
      up := ?_
      binding := ?_
      fdt := ?_ }
  · intro ep hep
    rcases List.mem_cons.1 hep with rfl | hold
    · exact Nat.lt_succ_self _
    · exact Nat.lt_succ_of_lt (hs.lt_portc ep hold)
  · refine List.nodup_cons.2 ⟨?_, hs.ports_nodup⟩
    intro hmem
    rcases List.mem_map.1 hmem with ⟨ep, hep, hport⟩
    exact hfresh ep hep hport
  · intro ep hep
    rcases List.mem_cons.1 hep with rfl | hold
    · exact Function.update_self _ _ _
    · exact (Function.update_of_ne (hfresh ep hold) _ _).trans (hs.slot ep hold)
  · intro i hi
    by_cases hnew : i = s.portc
    · exact ⟨⟨s.portc, fd_data⟩, List.mem_cons_self, hnew.symm⟩
    · have hold : (s.arena.port i).flag = .UP := by
        simpa [setManager, PortManager.opened, manager, PortArena.setPort, hnew] using hi
      rcases hs.up i hold with ⟨ep, hep, hport⟩
      exact ⟨ep, List.mem_cons_of_mem _ hep, hport⟩
  · intro ep hep
    cases hep
    exact List.mem_cons_self
  · intro fd ep hep
    rcases hs.fdt fd ep hep with ⟨hmem, hfd⟩
    exact ⟨List.mem_cons_of_mem _ hmem, hfd⟩

/-- Other steps leave the list and the slots alone, and add to the table of descriptors what
`add_port` has made. -/
theorem step (hs : s.PortsInv) {a : SwitchAction} (hinv : t.Inv) (h : Moves c s a t) :
    t.PortsInv := by
  rcases h.manager_cases with hmanager | ⟨fd, env, fd_data, _, _, _, rfl⟩
  · have harena : t.arena = s.arena := congrArg PortManager.arena hmanager
    have hportc : t.portc = s.portc := congrArg PortManager.portc hmanager
    have hendpoints : t.engine.endpoints = s.engine.endpoints :=
      congrArg PortManager.endpoints hmanager
    refine
      { inv := hinv
        lt_portc := by simpa [hendpoints, hportc] using hs.lt_portc
        ports_nodup := by simpa [hendpoints] using hs.ports_nodup
        slot := by simpa [hendpoints, harena] using hs.slot
        up := by simpa [hendpoints, harena] using hs.up
        binding := ?_
        fdt := ?_ }
    · intro ep hep
      rcases h.binding_cases hep with hold | hnew
      · simpa [hendpoints] using hs.binding ep hold
      · simp [hnew]
    · intro fd ep hep
      rcases h.fdt_cases with hfdt | ⟨ep', env, _, hctl, _, hfdt⟩
      · simpa [hendpoints, hfdt] using hs.fdt fd ep (by simpa [hfdt] using hep)
      · rw [hfdt] at hep
        rcases fdTableLookup_insert_eq_some hep with ⟨hfd, rfl⟩ | hold
        · exact ⟨by simpa [hendpoints] using hs.binding ep hctl, hfd.symm⟩
        · simpa [hendpoints] using hs.fdt fd ep hold
  · exact hs.opened fd_data hinv

end PortsInv

end State

namespace Switch

def PortsInv : Switch → Prop
  | .running s => s.PortsInv
  | .ended _ => True

variable {c : Config}

theorem portsInv_step {s t : Switch} {a : SwitchAction} (hs : s.PortsInv)
    (h : (switch c).step s a = some t) : t.PortsInv := by
  cases s with
  | ended halt => cases h
  | running s =>
      rcases Option.map_eq_some_iff.1 h with ⟨r, hr, rfl⟩
      cases r with
      | error halt => trivial
      | ok t =>
          have hinv : s.Inv := State.PortsInv.inv hs
          exact State.PortsInv.step hs ((hinv.step hr).inv t rfl) (hinv.moves hr)

/-- The structures agree in every state of the process. -/
theorem portsInv_of_reaches {s : State}
    (h : (switch c).Reaches (.running (State.start c)) (.running s)) : s.PortsInv := by
  have hstart : PortsInv (.running (State.start c)) := State.portsInv_start c
  exact h.invariant PortsInv (fun _ _ _ hs hstep => portsInv_step hs hstep) hstart

end Switch

end Process
end EVdeSwitch
