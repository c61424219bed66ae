import EVdeSwitch.Io.PortTable

/-!
# PortState — a port that is set down and up again

`set_port_state` of `src/io/port.c` marks a port as down by the flag that marks a slot as free.
`get_port` does not return a port that is down, so `set_port_state`, which looks for its port by
`get_port`, cannot set it up again; and a request for any port may take the slot in between.
-/

namespace EVdeSwitch
namespace Io

open EVdeSwitch.Lib
open EVdeSwitch.Utils

/-- The call is about port `k`.  A request for any port, by the number 0, is about none. -/
def PortCall.Names (k : Int) : PortCall → Prop
  | .allocPort portno => portno = k ∧ portno ≠ 0
  | .allocEndpoint portno _ => portno = k ∧ portno ≠ 0
  | .freePort i _ => (i : Int) = k
  | .setPortState portno _ => portno = k

namespace PortTable

/-- The call gives slot `i` to its caller. -/
def Hands (i : Nat) (r : Except Halt PortTable) (call : PortCall) : Prop :=
  match r, call with
  | .ok table, .allocPort portno => ∃ table', table.allocPort portno = .ok (some i, table')
  | .ok table, .allocEndpoint portno args =>
      ∃ ep table', table.allocEndpoint portno args = .ok (some ep, table') ∧
        (table'.port i).ep = some ep
  | _, _ => False

/-- What setting a port down and up again should do, for the tables before, after it is set down,
and before it is set up again. -/
structure DownUpInverse (k : Int) (table down between : PortTable) (calls : List PortCall) :
    Prop where
  restored : ∃ up i, between.setPortState k PORT_FLAG_UP = .ok up ∧
    table.getPort k = .ok (some i) ∧ up.getPort k = .ok (some i) ∧
    (up.port i).ep = (table.port i).ep
  reserved : ∀ i, table.getPort k = .ok (some i) →
    portTables.EveryStep (fun r call _ => ¬ Hands i r call) (.ok down) calls

variable {table table' down between : PortTable} {k portno state : Int} {i : Nat}
variable {e : EndpointPtr} {call : PortCall} {calls : List PortCall}

theorem setPortState_of_getPort (h : table.getPort k = .ok (some i)) (state : Int) :
    table.setPortState k state = .ok (table.setPort i { table.port i with flag := state }) := by
  rw [setPortState, h]

/-- A port that is down is not found. -/
theorem setPortState_of_down (hvalid : ¬ (k < 0 ∨ k ≥ table.NUMPORTS))
    (h : (table.port k.toNat).flag = PORT_FLAG_DOWN) (state : Int) :
    table.setPortState k state = .error (.exit 1 "Invalid port number %d") := by
  have hport : table.getPort k = .ok none := by
    simp only [getPort, if_neg hvalid, h, true_or, if_true]
  rw [setPortState, hport]
  rfl

theorem setPortState_eq_ok (h : table.setPortState k state = .ok table') :
    ∃ i, table.getPort k = .ok (some i) ∧
      table' = table.setPort i { table.port i with flag := state } := by
  cases hport : table.getPort k with
  | error halt =>
      rw [setPortState, hport] at h
      cases h
  | ok found =>
      cases found with
      | none =>
          rw [setPortState, hport] at h
          cases h
      | some i =>
          rw [setPortState_of_getPort hport] at h
          cases h
          exact ⟨i, rfl, rfl⟩

/-! ## The endpoint does not come back -/

/-- Slot `i` is down, or its endpoint is not `e`; and no other slot has it, although it has not been
freed. -/
structure Lost (table : PortTable) (i : Nat) (e : EndpointPtr) : Prop where
  inv : table.Inv
  live : table.heap e ≠ none
  others : ∀ j, j ≠ i → (table.port j).ep ≠ some e
  slot : (table.port i).flag = PORT_FLAG_DOWN ∨ (table.port i).ep ≠ some e

/-- Storing another endpoint, or none, into a slot. -/
theorem Lost.setPort (h : table.Lost i e) {j : Nat} {p : PortSlot} (hp : p.ep ≠ some e) :
    (∀ j', j' ≠ i → ((table.setPort j p).port j').ep ≠ some e) ∧
      (((table.setPort j p).port i).flag = PORT_FLAG_DOWN ∨
        ((table.setPort j p).port i).ep ≠ some e) := by
  constructor
  · intro j' hj'
    by_cases hj : j' = j
    · rw [hj, port_setPort_self]
      exact hp
    · rw [port_setPort_of_ne table hj]
      exact h.others j' hj'
  · by_cases hi : i = j
    · rw [hi, port_setPort_self]
      exact Or.inr hp
    · rw [port_setPort_of_ne table hi]
      exact h.slot

theorem Lost.step (h : table.Lost i e) (hnames : ¬ call.Names i)
    (hcall : table.Performed call (.ok table')) : table'.Lost i e := by
  have hinv := h.inv.step hcall
  cases hcall with
  | unchanged => exact h
  | @allocated portno hvalid hdown =>
      have hreset : (PortSlot.reset PORT_FLAG_UP).ep ≠ some e := by simp [PortSlot.reset]
      rcases h.setPort hreset (j := table.slotOf portno) with ⟨hothers, hslot⟩
      exact ⟨hinv, h.live, hothers, hslot⟩
  | @placed portno args ep hvalid hdown hmalloc hfresh =>
      -- the new endpoint is another one
      have hne : e ≠ ep := by
        rintro rfl
        exact h.live hfresh
      have hnew : ({ PortSlot.reset PORT_FLAG_UP with
          ep := some ep
          sender := args.sender
          receiver := args.receiver
          user := args.user } : PortSlot).ep ≠ some e :=
        fun hsome => hne (Option.some.inj hsome).symm
      rcases h.setPort hnew (j := table.slotOf portno) with ⟨hothers, hslot⟩
      refine ⟨hinv, ?_, hothers, hslot⟩
      have hsame : (table.placed portno args (table.slotOf portno) ep).heap e = table.heap e :=
        Function.update_of_ne hne _ _
      rw [hsame]
      exact h.live
  | @freed j fuel =>
      have hj : j ≠ i := fun hji => hnames (congrArg Int.ofNat hji)
      have hreset : (PortSlot.reset PORT_FLAG_DOWN).ep ≠ some e := by simp [PortSlot.reset]
      rcases h.setPort hreset (j := j) with ⟨hothers, hslot⟩
      refine ⟨hinv, ?_, hothers, hslot⟩
      cases hep : (table.port j).ep with
      | none => simpa only [freed, hep, heap_setPort] using h.live
      | some e' =>
          have hne : e ≠ e' := by
            rintro rfl
            exact h.others j hj hep
          simp only [freed, hep]
          rw [Function.update_of_ne hne]
          exact h.live
  | @stated portno state j hport =>
      have hj : j ≠ i := by
        rintro rfl
        rcases getPort_eq_some_iff.1 hport with ⟨⟨hvalid, htoNat⟩, _⟩
        refine hnames ?_
        change portno = (j : Int)
        omega
      have hsame : ({ table.port j with flag := state } : PortSlot).ep ≠ some e := h.others j hj
      rcases h.setPort hsame (j := j) with ⟨hothers, hslot⟩
      exact ⟨hinv, h.live, hothers, hslot⟩

def LostState (i : Nat) (e : EndpointPtr) : Except Halt PortTable → Prop
  | .ok table => table.Lost i e
  | .error _ => True

theorem lost_of_run (hdown : down.Lost i e) (hnames : ∀ call ∈ calls, ¬ call.Names i)
    (hrun : portTables.run (.ok down) calls = some (.ok between)) : between.Lost i e := by
  have hstart : LostState i e (.ok down) := hdown
  have hend : LostState i e (.ok between) := by
    refine Machine.invariant_run_of_forall (LostState i e) ?_ hstart hnames hrun
    intro r call r' hr hname hstep
    cases r with
    | error halt => cases hstep
    | ok table =>
        have hlost : table.Lost i e := hr
        cases r' with
        | error halt => trivial
        | ok table' => exact hlost.step hname (hlost.inv.performed hstep)
  exact hend

/-- A port that is set down loses its endpoint. -/
theorem Inv.lost (h : table.Inv) (he : (table.port i).ep = some e) :
    (table.setPort i { table.port i with flag := PORT_FLAG_DOWN }).Lost i e where
  inv := h.setPort (Or.inr rfl)
  live := by
    rcases h.live i e he with ⟨record, hrecord, _⟩
    rw [heap_setPort, hrecord]
    exact Option.some_ne_none _
  others := by
    intro j hj
    rw [port_setPort_of_ne table hj]
    exact fun hje => hj (h.distinct j i e hje he)
  slot := by
    rw [port_setPort_self]
    exact Or.inl rfl

/-- The port is down and `set_port_state` ends the process, or the slot has another endpoint or
none. -/
theorem Lost.not_restored (h : between.Lost i e) (hk : k.toNat = i) {up : PortTable}
    (hup : between.setPortState k state = .ok up) : (up.port i).ep ≠ some e := by
  rcases setPortState_eq_ok hup with ⟨j, hport, rfl⟩
  rcases getPort_eq_some_iff.1 hport with ⟨⟨_, hj⟩, hflag, _⟩
  have hij : j = i := hj.symm.trans hk
  subst hij
  rw [port_setPort_self]
  exact h.slot.resolve_left hflag

/-- Setting an attached port down and up again never does what it should, whatever other calls come
in between. -/
theorem down_up_not_inverse {NUMPORTS : Nat}
    (hreach : portTables.Reaches (.ok (init NUMPORTS)) (.ok table))
    (hattached : table.getPort k = .ok (some i))
    (hdown : table.setPortState k PORT_FLAG_DOWN = .ok down)
    (hnames : ∀ call ∈ calls, ¬ call.Names k)
    (hrun : portTables.run (.ok down) calls = some (.ok between)) :
    ¬ DownUpInverse k table down between calls := by
  rintro ⟨⟨up, j, hup, hport, _, hsame⟩, _⟩
  rw [hattached] at hport
  cases hport
  rcases getPort_eq_some_iff.1 hattached with ⟨⟨hvalid, hk⟩, _, hep⟩
  rcases Option.ne_none_iff_exists'.1 hep with ⟨e, he⟩
  rw [setPortState_of_getPort hattached] at hdown
  cases hdown
  have hki : k = (i : Int) := by omega
  rw [hki] at hnames
  have hlost := lost_of_run ((inv_of_reaches hreach).lost he) hnames hrun
  -- the endpoint that should be back is lost
  rw [he] at hsame
  exact hlost.not_restored hk hup hsame

/-- One port, with an endpoint. -/
def attachedTable : PortTable :=
  (init 1).placed 0 firstArgs 0 100

theorem getPort_attachedTable : attachedTable.getPort 0 = .ok (some 0) :=
  (getPort_placed (by decide)).2 rfl

/-- In between another port is taken, by a request for any port, and freed again. -/
def otherCalls : List PortCall :=
  [.allocEndpoint 0 secondArgs, .freePort 0 2]

theorem down_up_not_inverse_others :
    ∃ table down between, portTables.run (.ok (init 2)) [.allocEndpoint 1 firstArgs] =
        some (.ok table) ∧
      portTables.run (.ok down) otherCalls = some (.ok between) ∧
      (between.port 1).ep = some 100 ∧
      ¬ DownUpInverse 1 table down between otherCalls := by
  let table := (init 2).placed 1 firstArgs 1 100
  let down := table.setPort 1 { table.port 1 with flag := PORT_FLAG_DOWN }
  have hfresh : (init 2).Fresh firstArgs := fun _ _ => rfl
  have halloc : (init 2).allocEndpoint 1 firstArgs = .ok (some 100, table) :=
    allocEndpoint_of_down (by decide) rfl rfl
  have htable : portTables.run (.ok (init 2)) [.allocEndpoint 1 firstArgs] = some (.ok table) := by
    rw [Machine.run_singleton]
    change (init 2).perform (.allocEndpoint 1 firstArgs) = _
    rw [perform, if_pos hfresh, halloc]
    rfl
  have hattached : table.getPort 1 = .ok (some 1) := (getPort_placed (by decide)).2 rfl
  have hdown : table.setPortState 1 PORT_FLAG_DOWN = .ok down :=
    setPortState_of_getPort hattached _
  have hnames : ∀ call ∈ otherCalls, ¬ call.Names 1 := by
    simp [otherCalls, PortCall.Names]
  have heval : ((portTables.run (.ok down) otherCalls).bind Except.toOption).map (fun table =>
      (table.port 1).ep) = some (some 100) := by
    decide +kernel
  rcases Option.map_eq_some_iff.1 heval with ⟨between, hbetween, hep⟩
  rcases Option.bind_eq_some_iff.1 hbetween with ⟨r, hrun, hr⟩
  cases r with
  | error halt => cases hr
  | ok between' =>
      cases hr
      exact ⟨table, down, between, htable, hrun, hep,
        down_up_not_inverse ⟨_, htable⟩ hattached hdown hnames hrun⟩

/-- The port, set down. -/
def downTable : PortTable :=
  attachedTable.setPort 0 { attachedTable.port 0 with flag := PORT_FLAG_DOWN }

/-- A request for any port takes the slot, and setting the port up then keeps the new endpoint. -/
theorem not_down_up_inverse_taken :
    ∃ between, portTables.run (.ok downTable) [.allocEndpoint 0 secondArgs] = some (.ok between) ∧
      between.setPortState 0 PORT_FLAG_UP = .ok between ∧
      ¬ DownUpInverse 0 attachedTable downTable between [.allocEndpoint 0 secondArgs] := by
  have halloc : downTable.allocEndpoint 0 secondArgs =
      .ok (some 101, downTable.placed 0 secondArgs 0 101) :=
    allocEndpoint_of_down (by decide) rfl rfl
  have hfresh : downTable.Fresh secondArgs := by
    intro ep hep
    cases hep
    rfl
  have hstep : portTables.step (.ok downTable) (.allocEndpoint 0 secondArgs) =
      some (.ok (downTable.placed 0 secondArgs 0 101)) := by
    change downTable.perform (.allocEndpoint 0 secondArgs) = _
    rw [perform, if_pos hfresh, halloc]
    rfl
  have hport : (downTable.placed 0 secondArgs 0 101).getPort 0 = .ok (some 0) :=
    (getPort_placed (by decide)).2 rfl
  refine ⟨downTable.placed 0 secondArgs 0 101, ?_, ?_, ?_⟩
  · rw [Machine.run_singleton]
    exact hstep
  · -- the flag is up already
    rw [setPortState_of_getPort hport]
    simp [placed, setPort, PortSlot.reset, PORT_FLAG_UP]
  · intro hinverse
    have hhands : Hands 0 (.ok downTable) (.allocEndpoint 0 secondArgs) :=
      ⟨101, _, halloc, by simp [placed]⟩
    exact hinverse.reserved 0 getPort_attachedTable [] _ [] rfl _ _ rfl hstep hhands

/-! ## Who gets the slot in between -/

/-- A request for any port that gets one finds a free port before slot `i`. -/
def FirstBelow (i : Nat) (r : Except Halt PortTable) (call : PortCall) : Prop :=
  match r, call with
  | .ok table, .allocPort portno =>
      portno = 0 → ∃ j < i, (table.port j).flag = PORT_FLAG_DOWN
  | .ok table, .allocEndpoint portno args =>
      portno = 0 → args.malloc ≠ none → ∃ j < i, (table.port j).flag = PORT_FLAG_DOWN
  | _, _ => True

/-- While slot `i` is free, a request that does not name it gets it exactly if it is the first. -/
theorem slotOf_eq_iff (hi : i < table.NUMPORTS) (hdown : (table.port i).flag = PORT_FLAG_DOWN)
    (hvalid : ¬ (portno < 0 ∨ portno ≥ table.NUMPORTS)) (hnames : ¬ (portno = (i : Int) ∧ portno ≠ 0)) :
    table.slotOf portno = i ↔ ¬ (portno = 0 → ∃ j < i, (table.port j).flag = PORT_FLAG_DOWN) := by
  by_cases hzero : portno = 0
  · subst hzero
    -- a request for any port takes the first free slot, and slot `i` is free
    rcases table.slotOf_zero_cases with ⟨_, hfirst, hbefore⟩ | ⟨_, hup⟩
    · constructor
      · rintro hslot hbelow
        rcases hbelow rfl with ⟨j, hj, hjdown⟩
        exact hbefore j (hslot ▸ hj) hjdown
      · intro hnone
        rcases Nat.lt_trichotomy (table.slotOf 0) i with hlt | heq | hgt
        · exact absurd (fun _ => ⟨_, hlt, hfirst⟩) hnone
        · exact heq
        · exact absurd hdown (hbefore i hgt)
    · exact absurd hdown (hup i hi)
  · rw [slotOf_of_ne_zero table hzero]
    refine iff_of_false ?_ (by simp [hzero])
    intro hslot
    exact hnames ⟨by omega, hzero⟩

theorem hands_allocPort :
    Hands i (.ok table) (.allocPort portno) ↔
      ¬ (portno < 0 ∨ portno ≥ table.NUMPORTS) ∧
        (table.port (table.slotOf portno)).flag = PORT_FLAG_DOWN ∧ table.slotOf portno = i := by
  rcases table.allocPort_cases portno with ⟨hinvalid, halloc⟩ | ⟨hvalid, ⟨hup, halloc⟩ | ⟨hdown, halloc⟩⟩
  · simp [Hands, halloc, hinvalid]
  · simp [Hands, halloc, hup]
  · simp [Hands, halloc, hdown, hvalid]

theorem hands_allocEndpoint (hinv : table.Inv) {args : EndpointArgs} (hfresh : table.Fresh args) :
    Hands i (.ok table) (.allocEndpoint portno args) ↔
      (¬ (portno < 0 ∨ portno ≥ table.NUMPORTS) ∧ args.malloc ≠ none) ∧
        (table.port (table.slotOf portno)).flag = PORT_FLAG_DOWN ∧ table.slotOf portno = i := by
  constructor
  · rintro ⟨ep, table', halloc, hep⟩
    rcases allocEndpoint_eq_ok halloc with ⟨hvalid, hdown, hmalloc, rfl⟩
    refine ⟨⟨hvalid, by simp [hmalloc]⟩, hdown, ?_⟩
    -- no other slot has the new endpoint
    have hself : ((table.placed portno args (table.slotOf portno) ep).port
        (table.slotOf portno)).ep = some ep := by
      simp [placed]
    exact (hinv.placed (hfresh ep hmalloc)).distinct _ _ ep hself hep
  · rintro ⟨⟨hvalid, hmalloc⟩, hdown, rfl⟩
    rcases Option.ne_none_iff_exists'.1 hmalloc with ⟨ep, hep⟩
    exact ⟨ep, _, allocEndpoint_of_down hvalid hdown hep, by simp [placed]⟩

/-- Slot `i` is free. -/
def FreeState (i : Nat) : Except Halt PortTable → Prop
  | .ok table => table.Inv ∧ i < table.NUMPORTS ∧ (table.port i).flag = PORT_FLAG_DOWN
  | .error _ => True

theorem NUMPORTS_of_performed (h : table.Performed call (.ok table')) :
    table'.NUMPORTS = table.NUMPORTS := by
  cases h <;> rfl

/-- A call that neither names slot `i` nor gives it to its caller leaves its flag. -/
theorem flag_of_performed (h : table.Performed call (.ok table')) (hnames : ¬ call.Names i)
    (hnot : ¬ Hands i (.ok table) call) : (table'.port i).flag = (table.port i).flag := by
  cases h with
  | unchanged => rfl
  | @allocated portno hvalid hdown =>
      have hne : i ≠ table.slotOf portno := fun hi => hnot (hands_allocPort.2 ⟨hvalid, hdown, hi.symm⟩)
      rw [port_setPort_of_ne table hne]
  | @placed portno args ep hvalid hdown hmalloc hfresh =>
      have hne : i ≠ table.slotOf portno := by
        rintro rfl
        exact hnot ⟨ep, _, allocEndpoint_of_down hvalid hdown hmalloc, by simp [placed]⟩
      exact congrArg PortSlot.flag (port_setPort_of_ne table hne _)
  | @freed j fuel =>
      have hne : i ≠ j := fun hij => hnames (congrArg Int.ofNat hij.symm)
      exact congrArg PortSlot.flag (port_setPort_of_ne table hne _)
  | @stated portno state j hport =>
      have hne : i ≠ j := by
        rintro rfl
        rcases getPort_eq_some_iff.1 hport with ⟨⟨hvalid, htoNat⟩, _⟩
        refine hnames ?_
        change portno = (i : Int)
        omega
      rw [port_setPort_of_ne table hne]

theorem not_hands_iff (hinv : table.Inv) (hi : i < table.NUMPORTS)
    (hdown : (table.port i).flag = PORT_FLAG_DOWN) (hnames : ¬ call.Names i) {r : Except Halt PortTable}
    (hstep : portTables.step (.ok table) call = some r) :
    ¬ Hands i (.ok table) call ↔ FirstBelow i (.ok table) call := by
  have hzero : ¬ ((0 : Int) < 0 ∨ (0 : Int) ≥ table.NUMPORTS) := by omega
  cases call with
  | allocPort portno =>
      rw [hands_allocPort]
      -- a request that names a port names another one
      by_cases hany : portno = 0
      · subst hany
        have hslot := slotOf_eq_iff hi hdown hzero hnames
        constructor
        · intro hnot
          by_contra hfirst
          have heq := hslot.2 hfirst
          exact hnot ⟨hzero, heq ▸ hdown, heq⟩
        · rintro hfirst ⟨_, _, heq⟩
          exact hslot.1 heq hfirst
      · refine iff_of_true ?_ fun h => absurd h hany
        rintro ⟨hvalid, _, heq⟩
        exact (slotOf_eq_iff hi hdown hvalid hnames).1 heq fun h => absurd h hany
  | allocEndpoint portno args =>
      -- a call with memory that is in use is no step
      have hfresh : table.Fresh args := by
        by_contra hused
        have hnone : portTables.step (.ok table) (.allocEndpoint portno args) = none := if_neg hused
        rw [hnone] at hstep
        cases hstep
      rw [hands_allocEndpoint hinv hfresh]
      by_cases hany : portno = 0
      · subst hany
        have hslot := slotOf_eq_iff hi hdown hzero hnames
        constructor
        · intro hnot _ hmalloc
          by_contra hnone
          have heq := hslot.2 fun hbelow => hnone (hbelow rfl)
          exact hnot ⟨⟨hzero, hmalloc⟩, heq ▸ hdown, heq⟩
        · rintro hfirst ⟨⟨_, hmalloc⟩, _, heq⟩
          exact hslot.1 heq fun _ => hfirst rfl hmalloc
      · refine iff_of_true ?_ fun h => absurd h hany
        rintro ⟨⟨hvalid, _⟩, _, heq⟩
        exact (slotOf_eq_iff hi hdown hvalid hnames).1 heq fun h => absurd h hany
  | freePort j fuel => exact iff_of_true id trivial
  | setPortState portno state => exact iff_of_true id trivial

/-- The slot of a port that has been set down is given to nobody, as long as every request for any
port finds a free one before it. -/
theorem reserved_iff {NUMPORTS : Nat}
    (hreach : portTables.Reaches (.ok (init NUMPORTS)) (.ok table))
    (hattached : table.getPort k = .ok (some i))
    (hdown : table.setPortState k PORT_FLAG_DOWN = .ok down)
    (hnames : ∀ call ∈ calls, ¬ call.Names k) {r : Except Halt PortTable}
    (hrun : portTables.run (.ok down) calls = some r) :
    portTables.EveryStep (fun r call _ => ¬ Hands i r call) (.ok down) calls ↔
      portTables.Guarded (FirstBelow i) (.ok down) calls := by
  rcases getPort_eq_some_iff.1 hattached with ⟨⟨hvalid, hk⟩, _, _⟩
  have hki : k = (i : Int) := by omega
  rw [hki] at hnames
  rw [setPortState_of_getPort hattached] at hdown
  cases hdown
  have hstart : FreeState i
      (.ok (table.setPort i { table.port i with flag := PORT_FLAG_DOWN })) := by
    refine ⟨(inv_of_reaches hreach).setPort (Or.inr rfl), ?_, ?_⟩
    · change i < table.NUMPORTS
      omega
    · rw [port_setPort_self]
  -- slot `i` stays free as long as nobody gets it
  refine Machine.everyStep_iff_guarded_of_forall (FreeState i) ?_ hstart hnames hrun
  intro s call t hs hname hstep
  cases s with
  | error halt => cases hstep
  | ok table =>
      rcases hs with ⟨hinv, hi, hfree⟩
      have hnot := not_hands_iff hinv hi hfree hname hstep
      refine ⟨hnot, fun hfirst => ?_⟩
      cases t with
      | error halt => trivial
      | ok table' =>
          have hcall := hinv.performed hstep
          refine ⟨hinv.step hcall, ?_, ?_⟩
          · rw [NUMPORTS_of_performed hcall]
            exact hi
          · rw [flag_of_performed hcall hname (hnot.2 hfirst)]
            exact hfree

end PortTable

end Io
end EVdeSwitch
