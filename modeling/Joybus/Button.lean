/-!
The boot button. A press that is still held after the debounce delay restarts the board into its
bootloader.
-/

namespace Joybus.Button

/-- The debounce delay in milliseconds. -/
def debounce : Nat := 100

inductive Event where
  /-- The task waits for the button's falling edge. -/
  | awaitEdge
  /-- The task sleeps for the debounce delay. -/
  | sleep
  /-- The button was found held, or not. -/
  | level (held : Bool)
  /-- The board restarts into the bootloader. -/
  | reboot
deriving DecidableEq, Repr

/-- What the button task does, given whether each awaited edge comes, whether the button is held at
each look (it is not once the list ends) and how many sleeps end. -/
def watch : (edges held : List Bool) → (sleeps : Nat) → List Event
  | true :: _, _, 0 => [.awaitEdge, .sleep]
  | true :: edges, held, sleeps + 1 =>
    let pressed := held.headD false
    .awaitEdge :: .sleep :: .level pressed ::
      (if pressed then [.reboot] else []) ++ watch edges held.tail sleeps
  | _, _, _ => [.awaitEdge]

def Event.line : Event → String
  | awaitEdge => "button.wait_for_falling_edge"
  | sleep => s!"sleep {debounce} passes 0 failures 0"
  | level true => "button.level Low"
  | level false => "button.level High"
  | reboot => "reset_to_usb_boot 0 0"

end Joybus.Button
