import Joybus.Proofs.Ensures
import Joybus.Transceiver.Receive

/-! Which actions a call is made of. A send stays on the transmit side, a receive on the other. -/
namespace Joybus.Transceiver

variable {α β : Type} {A : Action → Prop} {W : Wait → List Action → Prop} {c : LinkConfig}

/-- The side of the link and the hardware an action concerns. -/
def Action.side : Action → Direction
  | .command c => c.side
  | .capacity d | .status d | .arm d | .disarm d => d
  | .txState | .setTx _ | .stage _ | .staged _ => .tx
  | .setRx _ | .expected | .setExpected _ | .store _ _ | .fetch _ => .rx

/-- An action that leaves engines and completion cells alone. -/
def Action.Engineless : Action → Prop
  | .command (.startTx _) | .command (.startRx _) | .command (.abort _) => False
  | .arm _ | .disarm _ => False
  | _ => True

/-- A sleep concerns no side, a completion wait that of its engine. -/
def Wait.On (d : Direction) : Wait → Prop
  | .nap _ => True
  | .completion e _ => e = d

def Wait.IsNap : Wait → Prop
  | .nap _ => True
  | .completion _ _ => False

/-- All actions of a call are in `A`, and all its waits, with what a cut there performs, in `W`. -/
def Call.Uses (A : Action → Prop) (W : Wait → List Action → Prop) : Call α → Prop
  | .done _ => True
  | .act a next => A a ∧ ∀ x, (next x).Uses A W
  | .wait p undo next => W p undo ∧ ∀ x, (next x).Uses A W

/-- The call concerns one side alone. -/
abbrev Call.OnSide (d : Direction) (call : Call α) : Prop :=
  call.Uses (·.side = d) fun p undo => p.On d ∧ ∀ a ∈ undo, a.side = d

/-- The actions a send of `words` is made of: it stages them, and starts the engine on no more words
than there are. -/
def Action.OfSend (words : List Word) : Action → Prop
  | .stage ws => ws = words
  | .staged n => n = words.length
  | .command (.startTx ws) => ws.length ≤ words.length
  | a => a.side = .tx

/-- The actions a receive of `count` words is made of: it starts the engine on so many, or stores
them one by one, and reads them all. -/
def Action.OfReceive (count : Nat) : Action → Prop
  | .command (.startRx n) | .fetch n => n = count
  | .store i _ => i < count
  | a => a.side = .rx

/-- The call stages `words` if anything, and starts the engine on no more. -/
abbrev Call.Sends (words : List Word) (call : Call α) : Prop :=
  call.Uses (·.OfSend words) fun p undo => p.On .tx ∧ ∀ a ∈ undo, a.OfSend words

/-- The call receives `count` words if anything. -/
abbrev Call.Receives (count : Nat) (call : Call α) : Prop :=
  call.Uses (·.OfReceive count) fun p undo => p.On .rx ∧ ∀ a ∈ undo, a.OfReceive count

/-- The call has no part in engine transfers. -/
abbrev Call.Engineless (call : Call α) : Prop :=
  call.Uses Action.Engineless fun p undo => p.IsNap ∧ ∀ a ∈ undo, a.Engineless

theorem Action.ensuresAll_of_mem {I : Link → Trace → Prop}
    (act : ∀ a, A a → ∀ l h, I l h → a.Ensures (fun _ => I) l h) {as : List Action}
    (has : ∀ a ∈ as, A a) {l : Link} {h : Trace} (hi : I l h) :
    Action.EnsuresAll I as l h := by
  induction as generalizing l h with
  | nil => exact hi
  | cons a as ih =>
    obtain ⟨ha, hs⟩ := List.forall_mem_cons.1 has
    exact Action.Ensures.mono (act a ha l h hi) fun _ _ _ => ih hs

namespace Call

theorem Uses.bind {call : Call α} {f : α → Call β} (hc : call.Uses A W)
    (hf : ∀ a, (f a).Uses A W) : (call >>= f).Uses A W := by
  induction call with
  | done a => exact hf a
  | act a next ih => exact ⟨hc.1, fun x => ih x (hc.2 x)⟩
  | wait p undo next ih => exact ⟨hc.1, fun x => ih x (hc.2 x)⟩

theorem Uses.mono {A' : Action → Prop} {W' : Wait → List Action → Prop} {call : Call α}
    (hc : call.Uses A W) (ha : ∀ a, A a → A' a) (hw : ∀ p undo, W p undo → W' p undo) :
    call.Uses A' W' := by
  induction call with
  | done a => trivial
  | act a next ih => exact ⟨ha a hc.1, fun x => ih x (hc.2 x)⟩
  | wait p undo next ih => exact ⟨hw p undo hc.1, fun x => ih x (hc.2 x)⟩

theorem uses_then {a : Action} {f : a.Answer → Call β} (ha : A a) (hf : ∀ x, (f x).Uses A W) :
    (perform a >>= f).Uses A W := ⟨ha, hf⟩

theorem uses_performAll {as : List Action} (ha : ∀ a ∈ as, A a) : (performAll as).Uses A W := by
  induction as with
  | nil => trivial
  | cons a as ih =>
    obtain ⟨h, hs⟩ := List.forall_mem_cons.1 ha
    exact ⟨h, fun _ => ih hs⟩

theorem uses_nap {us : Nat} {undo : List Action} {f : Unit → Call β} (hw : W (.nap us) undo)
    (hf : ∀ x, (f x).Uses A W) : (nap us undo >>= f).Uses A W := ⟨hw, hf⟩

theorem uses_completion {d : Direction} {us : Nat} {f : Option Completion.Report → Call β}
    (hw : W (.completion d us) (Action.abandon d)) (hf : ∀ x, (f x).Uses A W) :
    (completion d us >>= f).Uses A W := ⟨hw, hf⟩

/-- What every single action and wait of a call keeps, the call keeps. -/
theorem Uses.ensures {I R : Link → Trace → Prop} {call : Call α} (hu : call.Uses A W)
    (act : ∀ a, A a → ∀ l h, I l h → a.Ensures (fun _ => I) l h)
    (wait : ∀ p undo, W p undo → ∀ l h, I l h → p.Ensures I p.beginning (fun _ => I) l h)
    (drop : ∀ p undo, W p undo → ∀ l h, I l h → Action.EnsuresAll R undo l h)
    {l : Link} {h : Trace} (hi : I l h) : call.Ensures (fun _ => I) R l h := by
  induction call generalizing l h with
  | done a => exact hi
  | act a next ih =>
    refine Action.Ensures.mono (act a hu.1 l h hi) ?_
    intro x l h hn
    exact ih x (hu.2 x) hn
  | wait p undo next ih =>
    refine Wait.Ensures.mono (wait p undo hu.1 l h hi) ?_ ?_
    · exact drop p undo hu.1
    · intro x l h hn
      exact ih x (hu.2 x) hn

end Call

section Loops
variable {b : Budget} {undo : List Action}

theorem pushWithin_uses {d : Direction} {word : Word} (hp : A (.command (.push d word)))
    (hw : ∀ us, W (.nap us) undo) : (pushWithin d word undo b).Uses A W := by
  induction b with
  | spent b spent =>
    rw [pushWithin, if_pos spent]
    refine Call.uses_then hp ?_
    intro taken
    cases taken <;> trivial
  | sleep b unspent ih =>
    rw [pushWithin, if_neg unspent]
    refine Call.uses_then hp ?_
    intro taken
    cases taken with
    | true => trivial
    | false => exact Call.uses_nap (hw _) fun _ => ih

theorem awaitBusTurn_uses (hf : A (.command (.flag .tx busTurnFlag)))
    (hw : ∀ us, W (.nap us) []) : (awaitBusTurn b).Uses A W := by
  induction b with
  | spent b spent =>
    rw [awaitBusTurn, if_pos spent]
    refine Call.uses_then hf ?_
    intro seen
    cases seen <;> trivial
  | sleep b unspent ih =>
    rw [awaitBusTurn, if_neg unspent]
    refine Call.uses_then hf ?_
    intro seen
    cases seen with
    | true => trivial
    | false => exact Call.uses_nap (hw _) fun _ => ih

theorem takeBusTurn_uses (hf : A (.command (.flag .tx busTurnFlag)))
    (hc : A (.command (.clear .tx busTurnFlag))) (hr : A (.command (.reset .tx)))
    (hw : ∀ us, W (.nap us) []) : (takeBusTurn c).Uses A W := by
  refine Call.Uses.bind (awaitBusTurn_uses hf hw) ?_
  intro seen
  cases seen with
  | true => exact Call.uses_then hc fun _ => trivial
  | false => exact Call.uses_then hr fun _ => trivial

theorem fill_uses {words : List Word} (hp : ∀ word, A (.command (.push .tx word))) :
    (fill words).Uses A W := by
  induction words with
  | nil => trivial
  | cons word words ih =>
    refine Call.uses_then (hp word) ?_
    intro taken
    cases taken with
    | true => exact ih
    | false => trivial

theorem feed_uses {words : List Word} (hp : ∀ word, A (.command (.push .tx word)))
    (hw : ∀ us, W (.nap us) (Action.scrap .tx)) : (feed words b).Uses A W := by
  induction words generalizing b with
  | nil => trivial
  | cons word words ih =>
    refine (pushWithin_uses (hp word) hw).bind ?_
    intro left
    cases left with
    | some left => exact ih
    | none => trivial

theorem sendFifo_uses {words : List Word} {timeout : Nat} (hs : ∀ s, A (.setTx s))
    (hp : ∀ word, A (.command (.push .tx word))) (hn : A (.command (.notify .tx)))
    (hr : A (.command (.reset .tx))) (hw : ∀ us, W (.nap us) (Action.scrap .tx)) :
    (sendFifo c words timeout).Uses A W := by
  have scrapped : ∀ a ∈ Action.scrap .tx, A a := by
    simpa [Action.scrap, Action.setIdle] using ⟨hr, hs .idle⟩
  refine Call.uses_then (hs _) fun _ => Call.Uses.bind (fill_uses hp) ?_
  intro rest
  cases rest with
  | nil => exact Call.uses_then hn fun _ => Call.uses_then (hs _) fun _ => trivial
  | cons word rest =>
    refine Call.uses_then hn fun _ => Call.uses_then (hs _) fun _ =>
      Call.Uses.bind (feed_uses hp hw) ?_
    intro fed
    cases fed with
    | true => exact Call.uses_then (hs _) fun _ => trivial
    | false => exact Call.Uses.bind (Call.uses_performAll scrapped) fun _ => trivial

theorem publish_uses {len : Nat} (hp : A (.command (.push .rx (WordStream.header len))))
    (hw : ∀ us, W (.nap us) undo) : (publish c len undo).Uses A W :=
  Call.Uses.bind (pushWithin_uses hp hw) fun _ => trivial

theorem armFifo_uses {len : Nat} (hp : A (.command (.push .rx (WordStream.header len))))
    (hs : ∀ s, A (.setRx s)) (he : ∀ n, A (.setExpected n)) (hr : A (.command (.reset .rx)))
    (hw : ∀ us, W (.nap us) []) : (armFifo c len).Uses A W := by
  refine Call.Uses.bind (publish_uses hp hw) ?_
  intro taken
  cases taken with
  | true => exact Call.uses_then (hs _) fun _ => Call.uses_then (he _) fun _ => trivial
  | false => exact Call.uses_then hr fun _ => trivial

theorem pullWithin_uses (hp : A (.command (.pull .rx)))
    (hw : ∀ us, W (.nap us) (Action.scrap .rx)) : (pullWithin b).Uses A W := by
  induction b with
  | spent b spent =>
    rw [pullWithin, if_pos spent]
    refine Call.uses_then hp ?_
    intro word
    cases word <;> trivial
  | sleep b unspent ih =>
    rw [pullWithin, if_neg unspent]
    refine Call.uses_then hp ?_
    intro word
    cases word with
    | some word => trivial
    | none => exact Call.uses_nap (hw _) fun _ => ih

theorem collect_uses {missing index : Nat} (hp : A (.command (.pull .rx)))
    (hs : ∀ i word, i < index + missing → A (.store i word))
    (hw : ∀ us, W (.nap us) (Action.scrap .rx)) : (collect missing index b).Uses A W := by
  induction missing generalizing index b with
  | zero => trivial
  | succ missing ih =>
    refine (pullWithin_uses hp hw).bind ?_
    intro found
    cases found with
    | some found =>
      refine Call.uses_then (hs index found.1 (by omega)) fun _ => ih ?_
      intro i word hi
      exact hs i word (by omega)
    | none => trivial

theorem finishFifo_uses {len timeout : Nat} (hs : ∀ s, A (.setRx s))
    (hp : A (.command (.pull .rx))) (ht : ∀ i word, i < c.packing.wordCount len → A (.store i word))
    (hf : A (.fetch (c.packing.wordCount len))) (hr : A (.command (.reset .rx)))
    (hw : ∀ us, W (.nap us) (Action.scrap .rx)) : (finishFifo c len timeout).Uses A W := by
  have scrapped : ∀ a ∈ Action.scrap .rx, A a := by
    simpa [Action.scrap, Action.setIdle] using ⟨hr, hs .idle⟩
  have stored : ∀ i word, i < 0 + c.packing.wordCount len → A (.store i word) := by
    intro i word hi
    exact ht i word (by omega)
  refine Call.uses_then (hs _) fun _ => Call.Uses.bind (collect_uses hp stored hw) ?_
  intro all
  cases all with
  | true => exact Call.uses_then (hs _) fun _ => Call.uses_then hf fun _ => trivial
  | false => exact Call.Uses.bind (Call.uses_performAll scrapped) fun _ => trivial

theorem finishDma_uses {len timeout : Nat} (hs : ∀ s, A (.setRx s))
    (hb : A (.command (.abort .rx))) (hd : A (.disarm .rx))
    (hf : A (.fetch (c.packing.wordCount len))) (hr : A (.command (.reset .rx)))
    (hw : W (.completion .rx timeout) (Action.abandon .rx)) :
    (finishDma c len timeout).Uses A W := by
  have abandoned : ∀ a ∈ Action.abandon .rx, A a := by
    simpa [Action.abandon, Action.setIdle] using ⟨hb, hd, hs .idle⟩
  refine Call.uses_then (hs _) fun _ => Call.uses_completion hw ?_
  intro r
  cases r with
  | none =>
    exact Call.Uses.bind (Call.uses_performAll abandoned)
      fun _ => Call.uses_then hr fun _ => trivial
  | some r =>
    cases r with
    | done => exact Call.uses_then (hs _) fun _ => Call.uses_then hf fun _ => trivial
    | error =>
      exact Call.Uses.bind (Call.uses_performAll abandoned)
        fun _ => Call.uses_then hr fun _ => trivial

/-- Waiting for a receive is made of what both modes are made of. -/
theorem finishReceive_uses {timeout : Nat} (he : A .expected) (hx : A (.setExpected none))
    (dma : ∀ len, (finishDma c len timeout).Uses A W)
    (fifo : ∀ len, (finishFifo c len timeout).Uses A W) : (finishReceive c timeout).Uses A W := by
  refine Call.uses_then he ?_
  intro expected
  cases expected with
  | none => trivial
  | some len =>
    refine Call.uses_then hx fun _ => ?_
    split
    · trivial
    cases hm : c.mode with
    | dma => exact dma len
    | fifo => exact fifo len

end Loops

theorem scrap_engineless (d : Direction) : ∀ a ∈ Action.scrap d, a.Engineless := by
  cases d <;> simp [Action.scrap, Action.setIdle, Action.Engineless]

theorem takeBusTurn_engineless (c : LinkConfig) : (takeBusTurn c).Engineless :=
  takeBusTurn_uses trivial trivial trivial fun _ => ⟨trivial, by simp⟩

theorem sendFifo_engineless (c : LinkConfig) (words : List Word) (timeout : Nat) :
    (sendFifo c words timeout).Engineless :=
  sendFifo_uses (fun _ => trivial) (fun _ => trivial) trivial trivial
    fun _ => ⟨trivial, scrap_engineless .tx⟩

theorem armFifo_engineless (c : LinkConfig) (len : Nat) : (armFifo c len).Engineless :=
  armFifo_uses trivial (fun _ => trivial) (fun _ => trivial) trivial fun _ => ⟨trivial, by simp⟩

theorem finishFifo_engineless (c : LinkConfig) (len timeout : Nat) :
    (finishFifo c len timeout).Engineless :=
  finishFifo_uses (fun _ => trivial) trivial (fun _ _ _ => trivial) trivial trivial
    fun _ => ⟨trivial, scrap_engineless .rx⟩

section Repertoires
variable {words : List Word} {count len timeout : Nat}

theorem Action.OfSend.side_eq {a : Action} (ha : a.OfSend words) : a.side = .tx := by
  cases a with
  | command c => cases c <;> first | exact ha | rfl
  | stage ws | staged n => rfl
  | _ => exact ha

theorem Action.OfReceive.side_eq {a : Action} (ha : a.OfReceive count) : a.side = .rx := by
  cases a with
  | command c => cases c <;> first | exact ha | rfl
  | fetch n | store i word => rfl
  | _ => exact ha

/-- What is sent goes through the transmit side alone. -/
theorem Call.Sends.onSide {call : Call α} (hc : call.Sends words) : call.OnSide .tx := by
  refine Uses.mono hc (fun _ ha => ha.side_eq) ?_
  rintro p undo ⟨hp, hu⟩
  exact ⟨hp, fun a ha => (hu a ha).side_eq⟩

/-- What is received comes through the receive side alone. -/
theorem Call.Receives.onSide {call : Call α} (hc : call.Receives count) : call.OnSide .rx := by
  refine Uses.mono hc (fun _ ha => ha.side_eq) ?_
  rintro p undo ⟨hp, hu⟩
  exact ⟨hp, fun a ha => (hu a ha).side_eq⟩

theorem abandon_ofSend : ∀ a ∈ Action.abandon .tx, a.OfSend words := by
  simp [Action.abandon, Action.setIdle, Action.OfSend, Action.side, Command.side]

theorem scrap_ofSend : ∀ a ∈ Action.scrap .tx, a.OfSend words := by
  simp [Action.scrap, Action.setIdle, Action.OfSend, Action.side, Command.side]

theorem abandon_ofReceive : ∀ a ∈ Action.abandon .rx, a.OfReceive count := by
  simp [Action.abandon, Action.setIdle, Action.OfReceive, Action.side, Command.side]

theorem scrap_ofReceive : ∀ a ∈ Action.scrap .rx, a.OfReceive count := by
  simp [Action.scrap, Action.setIdle, Action.OfReceive, Action.side, Command.side]

theorem sendDma_sends : (sendDma words timeout).Sends words := by
  refine Call.uses_then rfl fun _ => Call.uses_then rfl fun staged => ?_
  have fewer : staged.toList.length ≤ words.length := by
    rw [Vector.length_toList]
    exact Nat.min_le_left _ _
  refine Call.uses_then rfl fun _ => Call.uses_then rfl fun _ => Call.uses_then fewer fun _ =>
    Call.uses_then rfl fun _ => Call.uses_then rfl fun _ =>
    Call.uses_completion ⟨rfl, abandon_ofSend⟩ ?_
  intro r
  cases r with
  | none =>
    exact Call.Uses.bind (Call.uses_performAll abandon_ofSend)
      fun _ => Call.uses_then rfl fun _ => trivial
  | some r =>
    cases r with
    | done => exact Call.uses_then rfl fun _ => trivial
    | error =>
      exact Call.Uses.bind (Call.uses_performAll abandon_ofSend)
        fun _ => Call.uses_then rfl fun _ => trivial

theorem sendWords_sends : (sendWords c words timeout).Sends words := by
  refine Call.uses_then rfl ?_
  intro s
  split
  · trivial
  refine Call.uses_then rfl ?_
  intro status
  split
  · trivial
  have turn : (takeBusTurn c).Sends words :=
    takeBusTurn_uses rfl rfl rfl fun _ => ⟨trivial, by simp⟩
  refine turn.bind ?_
  intro taken
  cases taken with
  | false => trivial
  | true =>
    cases hm : c.mode with
    | dma => exact sendDma_sends
    | fifo =>
      exact sendFifo_uses (fun _ => rfl) (fun _ => rfl) rfl rfl fun _ => ⟨trivial, scrap_ofSend⟩

/-- A send sends the word stream of its frame. -/
theorem send_sends {bytes : List Byte} (timeout : Nat)
    (he : WordStream.encode bytes c.maxFrameBytes = .ok words) :
    (send c bytes timeout).Sends words := by
  rw [send, he]
  cases words with
  | nil => trivial
  | cons word words =>
    cases hm : c.mode with
    | fifo => exact sendWords_sends
    | dma =>
      refine Call.uses_then rfl ?_
      intro n
      split
      · trivial
      · exact sendWords_sends

/-- A send leaves the receive side alone. -/
theorem send_onSide (c : LinkConfig) (bytes : List Byte) (timeout : Nat) :
    (send c bytes timeout).OnSide .tx := by
  cases he : WordStream.encode bytes c.maxFrameBytes with
  | ok words => exact (send_sends timeout he).onSide
  | error e =>
    rw [send, he]
    trivial

theorem armReceive_receives (c : LinkConfig) (len : Nat) :
    (armReceive c len).Receives (c.packing.wordCount len) := by
  unfold armReceive
  split
  · trivial
  refine Call.uses_then rfl ?_
  intro expected
  split
  · trivial
  refine Call.uses_then rfl ?_
  intro status
  split
  · trivial
  split
  · exact Call.uses_then rfl fun _ => trivial
  cases hm : c.mode with
  | fifo => exact armFifo_uses rfl (fun _ => rfl) (fun _ => rfl) rfl fun _ => ⟨trivial, by simp⟩
  | dma =>
    refine Call.uses_then rfl ?_
    intro n
    split
    · trivial
    refine Call.uses_then rfl fun _ => ⟨rfl, fun _ => Call.uses_then rfl fun _ =>
      Call.Uses.bind (publish_uses rfl fun _ => ⟨trivial, abandon_ofReceive⟩) ?_⟩
    intro taken
    cases taken with
    | true => exact Call.uses_then rfl fun _ => trivial
    | false =>
      exact Call.Uses.bind (Call.uses_performAll abandon_ofReceive)
        fun _ => Call.uses_then rfl fun _ => trivial

/-- Arming a receive leaves the transmit side alone. -/
theorem armReceive_onSide (c : LinkConfig) (len : Nat) : (armReceive c len).OnSide .rx :=
  (armReceive_receives c len).onSide

theorem finishDma_receives : (finishDma c len timeout).Receives (c.packing.wordCount len) :=
  finishDma_uses (fun _ => rfl) rfl rfl rfl rfl ⟨rfl, abandon_ofReceive⟩

theorem finishFifo_receives : (finishFifo c len timeout).Receives (c.packing.wordCount len) :=
  finishFifo_uses (fun _ => rfl) rfl (fun _ _ hi => hi) rfl rfl
    fun _ => ⟨trivial, scrap_ofReceive⟩

end Repertoires

/-- Waiting for a receive leaves the transmit side alone. -/
theorem finishReceive_onSide (c : LinkConfig) (timeout : Nat) :
    (finishReceive c timeout).OnSide .rx :=
  finishReceive_uses rfl rfl (fun _ => finishDma_receives.onSide)
    fun _ => finishFifo_receives.onSide

/-- Giving up a receive reads no word, and never waits. -/
theorem cancelReceive_receives (c : LinkConfig) (count : Nat) :
    (cancelReceive c).Uses (·.OfReceive count) fun _ _ => False := by
  refine Call.uses_then rfl ?_
  intro expected
  split
  · refine Call.uses_then rfl fun _ => ?_
    cases hm : c.mode with
    | dma =>
      refine Call.Uses.bind (Call.uses_performAll ?_) fun _ =>
        Call.uses_then rfl fun _ => ⟨rfl, fun _ => trivial⟩
      simp [Action.OfReceive, Action.side, Command.side]
    | fifo => exact Call.uses_then rfl fun _ => ⟨rfl, fun _ => trivial⟩
  · trivial

/-- Giving up a receive leaves the transmit side alone, and never waits. -/
theorem cancelReceive_onSide (c : LinkConfig) :
    (cancelReceive c).Uses (·.side = .rx) fun _ _ => False :=
  (cancelReceive_receives c 0).mono (fun _ ha => ha.side_eq) fun _ _ hw => hw

end Joybus.Transceiver
