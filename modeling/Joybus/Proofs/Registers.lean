import Joybus.Chip.Dma

/-! What the registers hold about one channel, and what each access to them changes. -/
namespace Joybus.Chip

variable {c : Chip} {ch other : ChannelId} {d : Direction}

/-- What the registers hold about a channel: its status, its raw interrupt, and whether that goes to
the bus's line. -/
structure Port where
  busy : Bool
  error : Bool
  raised : Bool
  routed : Bool
deriving DecidableEq, Repr

namespace Port

/-- The interrupt is seen on the bus's line. -/
def pending (p : Port) : Bool := p.raised && p.routed

/-- The interrupt is acknowledged if it is seen. -/
def served (p : Port) : Port := { p with raised := p.raised && !p.pending }

end Port

def port (c : Chip) (ch : ChannelId) : Port :=
  ⟨(c.channels.get ch).busy, (c.channels.get ch).error, c.raw.getLsbD ch, c.enable1.getLsbD ch⟩

/-- Keeps a channel's interrupt off the line. -/
def mute (c : Chip) (ch : ChannelId) : Chip := c.writeEnable1 (c.enable1 &&& ~~~mask ch)

/-- Lets a channel's interrupt through to the line. -/
def unmute (c : Chip) (ch : ChannelId) : Chip := c.writeEnable1 (c.enable1 ||| mask ch)

/-- The hardware ends a channel's transfer and raises its interrupt, which may be served later. -/
def raise (c : Chip) (ch : ChannelId) (error : Bool) : Chip :=
  { c.setChannel ch ⟨false, error⟩ with raw := c.raw ||| mask ch }

/-- Stops a channel at once; the interrupt it may raise by that is not served yet. -/
def cease (c : Chip) (ch : ChannelId) (spurious : Bool) : Chip :=
  let c := c.log (.abort (mask ch))
  let c := if spurious then c.raise ch false else c
  c.setChannel ch { c.channels.get ch with busy := false }

/-- Serves the line if an interrupt is seen on it. -/
def serveDue (c : Chip) : Chip :=
  if c.raw &&& c.enable1 = 0 then c else (c.log .interrupt).service

/-- The reports the service routine makes about a direction. -/
def due (c : Chip) (d : Direction) : List Transceiver.Mark :=
  match c.claimed d with
  | none => []
  | some ch =>
    if (c.port ch).pending then [⟨d, if (c.port ch).error then .error else .done⟩] else []

section Ports

theorem getLsbD_mask (ch : ChannelId) (i : Nat) : (mask ch).getLsbD i = decide (i = ch) := by
  have hlt : ch.val < 32 := by omega
  simp [mask, BitVec.getLsbD_twoPow, hlt, eq_comm]

/-- Clearing a channel's bit of a register leaves the others. -/
theorem getLsbD_and_not_mask (w : Word) (i : Nat) :
    (w &&& ~~~mask ch).getLsbD i = (w.getLsbD i && decide (i ≠ ch)) := by
  rw [BitVec.getLsbD_and, BitVec.getLsbD_not, getLsbD_mask]
  by_cases hlt : i < 32
  · simp [hlt]
  · simp [BitVec.getLsbD_of_ge w i (by omega)]

/-- Setting a channel's bit of a register leaves the others. -/
theorem getLsbD_or_mask (w : Word) (i : Nat) :
    (w ||| mask ch).getLsbD i = (w.getLsbD i || decide (i = ch)) := by
  rw [BitVec.getLsbD_or, getLsbD_mask]

@[simp] theorem channels_setChannel_self (s : ChannelState) :
    (c.setChannel ch s).channels.get ch = s :=
  Vector.getElem_set_self _

theorem channels_setChannel_of_ne (s : ChannelState) (h : other ≠ ch) :
    (c.setChannel ch s).channels.get other = c.channels.get other :=
  Vector.getElem_set_ne ch.isLt other.isLt (Fin.val_ne_of_ne h.symm)

@[simp] theorem channels_raise_self (error : Bool) :
    (c.raise ch error).channels.get ch = ⟨false, error⟩ :=
  channels_setChannel_self _

@[simp] theorem port_log (a : Access) : (c.log a).port ch = c.port ch := rfl

@[simp] theorem port_setClaim (claim : Option ChannelId) :
    (c.setClaim d claim).port ch = c.port ch := by
  cases d <;> rfl

@[simp] theorem port_writeEnable0 (value : Word) : (c.writeEnable0 value).port ch = c.port ch := rfl

@[simp] theorem port_setChannel_self (s : ChannelState) :
    (c.setChannel ch s).port ch = { c.port ch with busy := s.busy, error := s.error } := by
  simp only [port, channels_setChannel_self]
  rfl

theorem port_setChannel_of_ne (s : ChannelState) (h : other ≠ ch) :
    (c.setChannel ch s).port other = c.port other := by
  simp only [port, channels_setChannel_of_ne s h]
  rfl

@[simp] theorem port_mute_self : (c.mute ch).port ch = { c.port ch with routed := false } := by
  simp only [port, mute, writeEnable1, log, getLsbD_and_not_mask]
  simp

theorem port_mute_of_ne (h : other ≠ ch) : (c.mute ch).port other = c.port other := by
  simp only [port, mute, writeEnable1, log, getLsbD_and_not_mask]
  simp [Fin.val_ne_of_ne h]

@[simp] theorem port_unmute_self : (c.unmute ch).port ch = { c.port ch with routed := true } := by
  simp only [port, unmute, writeEnable1, log, getLsbD_or_mask]
  simp

theorem port_unmute_of_ne (h : other ≠ ch) : (c.unmute ch).port other = c.port other := by
  simp only [port, unmute, writeEnable1, log, getLsbD_or_mask]
  simp [Fin.val_ne_of_ne h]

theorem port_acknowledge (m : Word) :
    (c.acknowledge m).port ch =
      { c.port ch with raised := (c.port ch).raised && !m.getLsbD ch } := by
  have hlt : ch.val < 32 := by omega
  simp only [port, acknowledge, log, BitVec.getLsbD_and, BitVec.getLsbD_not]
  simp [hlt]

@[simp] theorem port_acknowledge_self :
    (c.acknowledge (mask ch)).port ch = { c.port ch with raised := false } := by
  rw [port_acknowledge, getLsbD_mask]
  simp

theorem port_acknowledge_of_ne (h : other ≠ ch) :
    (c.acknowledge (mask ch)).port other = c.port other := by
  rw [port_acknowledge, getLsbD_mask]
  simp [Fin.val_ne_of_ne h]

@[simp] theorem port_raise_self (error : Bool) :
    (c.raise ch error).port ch = { c.port ch with busy := false, error, raised := true } := by
  simp only [port, raise, getLsbD_or_mask, channels_setChannel_self]
  simp [setChannel]

theorem port_raise_of_ne (error : Bool) (h : other ≠ ch) :
    (c.raise ch error).port other = c.port other := by
  have hv : other.val ≠ ch.val := Fin.val_ne_of_ne h
  simp only [port, raise, getLsbD_or_mask, channels_setChannel_of_ne _ h]
  simp [setChannel, hv]

@[simp] theorem port_cease_self (spurious : Bool) :
    (c.cease ch spurious).port ch =
      { c.port ch with
        busy := false
        error := !spurious && (c.port ch).error
        raised := spurious || (c.port ch).raised } := by
  cases spurious with
  | false =>
    simp only [cease, port_setChannel_self]
    rfl
  | true => simp [cease]

theorem port_cease_of_ne (spurious : Bool) (h : other ≠ ch) :
    (c.cease ch spurious).port other = c.port other := by
  unfold cease
  rw [port_setChannel_of_ne _ h]
  cases spurious with
  | false => rfl
  | true => exact port_raise_of_ne false h

@[simp] theorem port_arm_self (k : Channel) (t : Transfer) :
    (c.arm k t).port k.id = { c.port k.id with busy := true, error := false } :=
  port_setChannel_self _

theorem port_arm_of_ne (k : Channel) (t : Transfer) (h : other ≠ k.id) :
    (c.arm k t).port other = c.port other :=
  port_setChannel_of_ne _ h

@[simp] theorem port_move (k : Channel) (t : Transfer) : (c.move k t).2.port ch = c.port ch := by
  unfold move
  split <;> rfl

end Ports

section Service

theorem report_eq (c : Chip) (d : Direction) :
    c.report (c.raw &&& c.enable1) d = { c with reports := c.reports ++ c.due d } := by
  unfold report due
  cases hc : c.claimed d with
  | none => simp
  | some ch =>
    have hp : (c.raw &&& c.enable1).getLsbD ch = (c.port ch).pending := BitVec.getLsbD_and
    simp only [hp]
    by_cases h : (c.port ch).pending
    · rw [if_pos h, if_pos h]
      rfl
    · rw [if_neg h, if_neg h, List.append_nil]

/-- The service routine makes the reports that are due and acknowledges what is seen on the line. -/
theorem service_eq (c : Chip) :
    c.service = { c with reports := c.reports ++ (c.due .tx ++ c.due .rx) }.acknowledge
      (c.raw &&& c.enable1) := by
  have second := report_eq { c with reports := c.reports ++ c.due .tx } .rx
  rw [service, report_eq]
  simp only at second ⊢
  rw [second, ← List.append_assoc]
  rfl

theorem reports_service (c : Chip) :
    c.service.reports = c.reports ++ (c.due .tx ++ c.due .rx) := by
  rw [service_eq]
  rfl

/-- The service routine takes every interrupt off that is seen on the line, and nothing else. -/
@[simp] theorem port_service : c.service.port ch = (c.port ch).served := by
  rw [service_eq, port_acknowledge, BitVec.getLsbD_and]
  rfl

@[simp] theorem port_serveDue : c.serveDue.port ch = (c.port ch).served := by
  unfold serveDue
  by_cases h : c.raw &&& c.enable1 = 0
  · have hp : (c.port ch).pending = false := by
      have hb := BitVec.getLsbD_and (x := c.raw) (y := c.enable1) (i := ch)
      rw [h] at hb
      simpa [port, Port.pending] using hb
    rw [if_pos h]
    simp [Port.served, hp]
  · rw [if_neg h, port_service, port_log]

end Service

section Claims

@[simp] theorem claimed_setClaim_self (claim : Option ChannelId) :
    (c.setClaim d claim).claimed d = claim := by
  cases d <;> rfl

theorem claimed_setClaim_of_ne {e : Direction} (claim : Option ChannelId) (h : e ≠ d) :
    (c.setClaim d claim).claimed e = c.claimed e := by
  cases d <;> cases e <;> simp_all [setClaim, claimed]

@[simp] theorem claimed_writeEnable0 (value : Word) :
    (c.writeEnable0 value).claimed d = c.claimed d := by
  cases d <;> rfl

@[simp] theorem claimed_mute : (c.mute ch).claimed d = c.claimed d := by
  cases d <;> rfl

@[simp] theorem claimed_unmute : (c.unmute ch).claimed d = c.claimed d := by
  cases d <;> rfl

@[simp] theorem claimed_acknowledge (m : Word) : (c.acknowledge m).claimed d = c.claimed d := by
  cases d <;> rfl

@[simp] theorem claimed_raise (error : Bool) : (c.raise ch error).claimed d = c.claimed d := by
  cases d <;> rfl

@[simp] theorem claimed_cease (spurious : Bool) :
    (c.cease ch spurious).claimed d = c.claimed d := by
  cases d <;> cases spurious <;> rfl

@[simp] theorem claimed_arm (k : Channel) (t : Transfer) : (c.arm k t).claimed d = c.claimed d := by
  cases d <;> rfl

@[simp] theorem claimed_move (k : Channel) (t : Transfer) :
    (c.move k t).2.claimed d = c.claimed d := by
  unfold move
  split <;> cases d <;> rfl

@[simp] theorem claimed_service : c.service.claimed d = c.claimed d := by
  rw [service_eq]
  cases d <;> rfl

end Claims

section Calls

/-- A completion is the end of a transfer, served at once if it is seen. -/
theorem complete_eq (c : Chip) (ch : ChannelId) (error : Bool) :
    c.complete ch error = (c.raise ch error).serveDue := rfl

/-- The chip once the fate of a direction's next start is read off the script. -/
def asked (c : Chip) (d : Direction) : Chip := { c with script := (c.script.start d).2 }

theorem meetFate_eq (c : Chip) (k : Channel) :
    c.meetFate k = match (c.script.start k.endpoint.dir).1 with
      | .done => (c.asked k.endpoint.dir).complete k.id false
      | .error => (c.asked k.endpoint.dir).complete k.id true
      | .never => c.asked k.endpoint.dir := rfl

theorem setChannel_of_not_busy (h : (c.port ch).busy = false) :
    c.setChannel ch { c.channels.get ch with busy := false } = c := by
  have hs : { c.channels.get ch with busy := false } = c.channels.get ch := by
    rw [← h]
    rfl
  rw [hs]
  exact congrArg (fun channels => { c with channels }) (Vector.set_getElem_self _)

/-- A stop that raises an interrupt lets the line be served. -/
theorem halt_eq (c : Chip) (ch : ChannelId) :
    c.halt ch = if c.script.spurious then (c.cease ch true).serveDue else c.cease ch false := by
  by_cases h : c.script.spurious
  · have raised : c.cease ch true = (c.log (.abort (mask ch))).raise ch false :=
      setChannel_of_not_busy (by simp)
    have halted : c.halt ch = ((c.log (.abort (mask ch))).raise ch false).serveDue := by
      unfold halt
      simp only [log, h, if_true]
      exact setChannel_of_not_busy (by simp [complete_eq, Port.served])
    rw [if_pos h, halted, raised]
  · rw [if_neg h]
    simp only [halt, cease, log, h]
    rfl

/-- Claiming a channel is made of four accesses. -/
theorem route_eq (c : Chip) (ch : ChannelId) (d : Direction) :
    c.route ch d =
      (((c.setClaim d (some ch)).writeEnable0 ((c.setClaim d (some ch)).enable0 &&& ~~~mask ch))
        |>.acknowledge (mask ch)).unmute ch := rfl

@[simp] theorem port_route_self :
    (c.route ch d).port ch = { c.port ch with raised := false, routed := true } := by
  rw [route_eq, port_unmute_self, port_acknowledge_self, port_writeEnable0, port_setClaim]

theorem port_route_of_ne (h : other ≠ ch) : (c.route ch d).port other = c.port other := by
  rw [route_eq, port_unmute_of_ne h, port_acknowledge_of_ne h, port_writeEnable0, port_setClaim]

@[simp] theorem claimed_route_self : (c.route ch d).claimed d = some ch := by
  simp [route_eq]

theorem claimed_route_of_ne {e : Direction} (h : e ≠ d) :
    (c.route ch d).claimed e = c.claimed e := by
  simp [route_eq, claimed_setClaim_of_ne _ h]

/-- Giving up a transfer is made of four accesses. -/
theorem abort_eq (c : Chip) (k : Channel) :
    c.abort k = (((c.mute k.id).halt k.id).acknowledge (mask k.id)).unmute k.id := rfl

theorem port_halt_of_ne (h : other ≠ ch) :
    (c.halt ch).port other = if c.script.spurious then (c.port other).served else c.port other := by
  rw [halt_eq]
  split <;> simp [port_cease_of_ne, h]

/-- Giving up one transfer leaves the registers of the other channels, but for what a stop that
raises an interrupt lets be served. -/
theorem port_abort_of_ne (k : Channel) (h : other ≠ k.id) :
    (c.abort k).port other = if c.script.spurious then (c.port other).served else c.port other := by
  rw [abort_eq, port_unmute_of_ne h, port_acknowledge_of_ne h, port_halt_of_ne h,
    port_mute_of_ne h]
  rfl

/-- A transfer that is given up leaves its channel at rest, with its interrupt let through again. -/
theorem port_abort_self (k : Channel) :
    (c.abort k).port k.id =
      ⟨false, !c.script.spurious && (c.port k.id).error, false, true⟩ := by
  have spurious : (c.mute k.id).script.spurious = c.script.spurious := rfl
  rw [abort_eq, port_unmute_self, port_acknowledge_self, halt_eq, spurious]
  by_cases h : c.script.spurious <;> simp [h, Port.served]

end Calls

end Joybus.Chip
