import Joybus.Proofs.Exchanges
import Joybus.Proofs.Independence

/-! Exchanges of frames that are too long: nothing is touched, unless it is the transmit engine that
is too small. -/
namespace Joybus.Transceiver

open Trace

variable {σ : Type} {l : Link} {h : Trace} {c : LinkConfig} {bytes : List Byte}
  {len timeout : Nat}

/-- The transmit engine is found too small for the word stream of `bytes`. -/
def Event.overruns (bytes : List Byte) : Event → Bool
  | .acted (.capacity .tx) n => n < (WordStream.payload bytes).length + 1
  | _ => false

/-- A frame that the mode allows is too long for the transmit engine only, and a send that finds it
so has looked at nothing else. -/
theorem send_overruns (timeout : Nat) (fits : bytes.length ≤ c.maxFrameBytes) :
    (send c bytes timeout).Ensures
      (fun r l' h' => r = .error .frameTooLong → c.mode = .dma ∧ l' = l ∧
        ∃ n, (Event.acted (.capacity .tx) n).overruns bytes ∧ h' = h ++ [.acted (.capacity .tx) n])
      (fun _ _ => True) l h := by
  have handed {words : List Word} {K : Link → Trace → Prop} {l : Link} {h : Trace} :
      (sendWords c words timeout).Ensures (fun r l h => r = .error .frameTooLong → K l h)
        (fun _ _ => True) l h := by
    refine (sendWords_refused words timeout h.readsSince_refl).imp ?_
    rintro _ _ _ refused rfl
    obtain ⟨-, busy, -⟩ := refused rfl
    cases busy
  by_cases hb : bytes = []
  · subst hb
    exact nofun
  rw [send, encode_eq_ok c hb fits]
  cases hm : c.mode with
  | fifo => exact handed
  | dma =>
    rw [Call.ensures_bind, Call.ensures_capacity]
    intro n
    split
    · rename_i small
      exact fun _ => ⟨rfl, rfl, n, by simpa [Event.overruns] using small, rfl⟩
    · exact handed

/-- The receive side gives no command to the transmit side. -/
theorem ne_tx_of_rx (a : Action) (ha : a.side = .rx) : a.side ≠ .tx := by
  rw [ha]
  decide

/-- Cancelling undoes the receive, and leaves the transmit side alone. -/
theorem cancelReceive_untransmitted (he : l.expected = some len) (hm : .armed len ∈ h)
    (hs : ∀ e ∈ h, e.issued? .tx = none) :
    (cancelReceive c).Ensures
      (fun _ l h => h.Undone c.mode len ∧ l.expected = none ∧ h.issued .tx = [])
      (fun _ _ => False) l h := by
  have silent := (keeps_unissued .tx).uses (R := fun _ _ => False) (l := l)
    (cancelReceive_onSide c) ne_tx_of_rx (fun _ _ hw => hw.elim) (fun _ _ hw => hw.elim) hs
  refine ((cancelReceive_undoes he hm).and ((cancelReceive_clears c).and silent)).mono ?_
    fun _ _ hf => hf.1
  rintro _ l h ⟨undone, unarmed, silent⟩
  exact ⟨undone, unarmed, List.filterMap_eq_nil_iff.2 silent⟩

/-- Where an exchange finds a length too great: for the response before anything is done, for the
request once the receive is armed, which is then undone. -/
theorem exchange_overruns (fits : bytes.length ≤ c.maxFrameBytes) :
    (exchange c bytes len timeout).Ensures
      (fun r l h => (r = .error (.rx .frameTooLong) → ReadsSince [] h) ∧
        (r = .error (.tx .frameTooLong) → (c.mode = .dma ∧ ∃ e ∈ h, e.overruns bytes) ∧
          h.Undone c.mode len ∧ l.expected = none ∧ h.issued .tx = []))
      (fun _ _ => True) l [] := by
  -- From the arming on, as long as the transmit side is left alone.
  let Armed (l : Link) (h : Trace) : Prop :=
    l.expected = some len ∧ .armed len ∈ h ∧ ∀ e ∈ h, e.issued? .tx = none
  let Overrun (h : Trace) : Prop := c.mode = .dma ∧ ∃ e ∈ h, e.overruns bytes
  refine exchange_ensures (A := Armed) (B := fun _ _ => True)
    (F := fun e l h => e = .frameTooLong → Armed l h ∧ Overrun h) fits ?_ ?_ ?_ ?_
  · have silent := (keeps_unissued .tx).onSide (l := l) (h := []) (armReceive_onSide c len)
      ne_tx_of_rx trivial (by simp)
    refine ((armReceive_refused c len (readsSince_refl [])).and ((armReceive_expects c len).and
      ((armReceive_records c len rfl).and silent))).mono ?_ fun _ _ _ => trivial
    rintro r l h ⟨refused, expects, records, silent⟩
    cases r with
    | ok => exact ⟨expects rfl, (records rfl).1, silent⟩
    | error e =>
      refine ⟨fun hr => ?_, by simp⟩
      obtain rfl : e = .frameTooLong := ExchangeError.rx.inj (Except.error.inj hr)
      exact (refused rfl).1
  · rintro l h ⟨expected, armed, silent⟩
    refine (send_overruns timeout fits).imp ?_
    intro r l' h' overruns
    cases r with
    | ok => trivial
    | error e =>
      rintro rfl
      obtain ⟨dma, rfl, n, small, rfl⟩ := overruns rfl
      refine ⟨⟨expected, List.mem_append_left _ armed, ?_⟩, dma, _, by simp, small⟩
      exact List.forall_mem_append.2 ⟨silent, by simp [Event.issued?]⟩
  · intro e l h failed
    by_cases he : e = .frameTooLong
    · obtain ⟨⟨expected, armed, silent⟩, dma, small⟩ := failed he
      have overrun := (keeps_mem (·.overruns bytes)).always (l := l) (cancelReceive c) small
      refine ((cancelReceive_untransmitted expected armed silent).and overrun).mono ?_
        fun _ _ hr => hr.1.elim
      rintro _ l h ⟨undone, small⟩
      exact ⟨by simp, fun _ => ⟨⟨dma, small⟩, undone⟩⟩
    · refine (keeps_true.always (cancelReceive c) trivial).imp ?_
      intro _ l h _
      exact ⟨by simp, fun hr => (he (ExchangeError.tx.inj (Except.error.inj hr))).elim⟩
  · rintro l h -
    refine (finishReceive_refused c timeout h.readsSince_refl).imp ?_
    intro r _ h refused
    cases r with
    | ok => exact ⟨by simp, by simp⟩
    | error e =>
      refine ⟨fun hr => ?_, by simp⟩
      obtain rfl : e = .frameTooLong := ExchangeError.rx.inj (Except.error.inj hr)
      obtain ⟨-, unarmed, -⟩ := refused rfl
      cases unarmed

/-- An exchange that finds a length too great touches nothing, with one exception. From any state:
if it is the response that is too long, or a request longer than the mode allows, the exchange has
only read, and the world is as it was. A request that the mode allows is found too long in `dma` mode
alone, if the transmit engine is too small for its words, and by then the receive was armed: it is
undone again, and nothing was given to the transmit side. -/
theorem overlong_exchange_undone (H : Hardware σ) (s : Session σ) (bytes : List Byte)
    (len timeout polls : Nat) :
    let o := s.drive H (exchange · bytes len timeout) polls
    ∀ r left, o.value = .finished r left →
      (r = .error (.rx .frameTooLong) ∨
          r = .error (.tx .frameTooLong) ∧ s.config.maxFrameBytes < bytes.length →
        o.world = s.world ∧ ∀ e ∈ o.trace, e.Reads) ∧
      (r = .error (.tx .frameTooLong) → bytes.length ≤ s.config.maxFrameBytes →
        (s.config.mode = .dma ∧ ∃ e ∈ o.trace, e.overruns bytes) ∧
        o.trace.Undone s.config.mode len ∧ o.world.link.expected = none ∧
        o.trace.issued .tx = []) := by
  intro o r left hv
  have untouched : ReadsSince [] o.trace → o.world = s.world ∧ ∀ e ∈ o.trace, e.Reads :=
    Call.drive_untouched hv
  by_cases fits : bytes.length ≤ s.config.maxFrameBytes
  · obtain ⟨received, sent⟩ := Call.Ensures.finished H (exchange_overruns fits) hv
    refine ⟨?_, fun hr _ => sent hr⟩
    rintro (hr | ⟨-, long⟩)
    · exact untouched (received hr)
    · omega
  · have refused : (exchange s.config bytes len timeout).Ensures (fun _ _ h => ReadsSince [] h)
        (fun _ _ => True) s.world.link [] := by
      rw [exchange, if_pos (by omega)]
      exact readsSince_refl []
    exact ⟨fun _ => untouched (Call.Ensures.finished H refused hv), fun _ short => (fits short).elim⟩

/-- The transmit engine moves one word at most. -/
def cramped : Bench.Script where
  tx := {
    capacity := 1
    programCounter := 7
    origin := 3 }

/-- A frame of seventeen bytes, and one of a single byte that the engine cannot move. -/
theorem overlong_exchange_undone_cramped :
    let s := Session.start {} cramped
    let long := s.drive Bench.bench (exchange · (List.replicate 17 0) 1 1000) 1
    let short := s.drive Bench.bench (exchange · [0x01] 1 1000) 1
    long.value = .finished (.error (.tx .frameTooLong)) 1 ∧ long.world = s.world ∧
      short.value = .finished (.error (.tx .frameTooLong)) 1 ∧ short.trace.Undone .dma 1 ∧
      short.trace.issued .tx = [] := by
  intro s long short
  have refused : long.value = .finished (.error (.tx .frameTooLong)) 1 := by decide +kernel
  have overrun : short.value = .finished (.error (.tx .frameTooLong)) 1 := by decide +kernel
  obtain ⟨untouched, -⟩ := overlong_exchange_undone Bench.bench s (List.replicate 17 0) 1 1000 1
    _ _ refused
  obtain ⟨-, undone⟩ := overlong_exchange_undone Bench.bench s [0x01] 1 1000 1 _ _ overrun
  obtain ⟨-, receive, -, silent⟩ := undone rfl (by decide)
  exact ⟨refused, (untouched (.inr ⟨rfl, by decide⟩)).1, overrun, receive, silent⟩

/-- An exchange of a frame that the transmit engine cannot move starts the receive engine and has
the receive program take a bit count, then stops the one and resets the other. -/
theorem overlong_exchange_arms :
    let s := Session.start {} cramped
    let o := s.drive Bench.bench (exchange · [0x01] 1 1000) 1
    o.value = .finished (.error (.tx .frameTooLong)) 1 ∧ (∃ e ∈ o.trace, e.Starts .rx) ∧
      (∃ e ∈ o.trace, e.accepts .rx) ∧ (∃ e ∈ o.trace, e.stops .rx) ∧
      ∃ e ∈ o.trace, e.resets .rx := by
  intro s o
  exact ⟨by decide +kernel, by decide +kernel, by decide +kernel, by decide +kernel,
    by decide +kernel⟩

end Joybus.Transceiver
