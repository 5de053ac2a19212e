import SymbolicLtl.Diagram.Table

/-! Messages between workers, and the queues they wait in. -/
namespace SymbolicLtl

inductive MessageKind where
  | data
  | quit
  /-- A number that stands for no kind; such a message is read as data. -/
  | other (code : Int)
deriving DecidableEq, Repr

namespace MessageKind

def ofCode : Int → MessageKind
  | 0 => data
  | 1 => quit
  | code => other code

def code : MessageKind → Int
  | data => 0
  | quit => 1
  | other code => code

def name : MessageKind → String
  | data => "Data"
  | quit => "Quit"
  | other code => s!"Kind({code})"

end MessageKind

structure Message (α : Type) where
  kind : MessageKind
  src : Int
  content : α
deriving Repr

namespace Message

def isQuit {α : Type} (m : Message α) : Bool := m.kind == .quit

/-- The text of a message whose content has the given size. -/
def describe {α : Type} (size : α → Nat) (m : Message α) : String :=
  let src := m.src
  if m.isQuit then s!"Quit\x7bsrc: {src}\x7d"
  else
    let nodes := size m.content
    s!"Data\x7bsrc: {src}, nodes: {nodes}\x7d"

end Message

/-- A queue of messages, the oldest first. -/
abbrev Mailbox (α : Type) := List (Message α)

namespace Mailbox

variable {α : Type}

def send (b : Mailbox α) (m : Message α) : Mailbox α := b ++ [m]

/-- The oldest message, and the queue without it. -/
def receive : Mailbox α → Option (Message α × Mailbox α)
  | [] => none
  | m :: rest => some (m, rest)

end Mailbox
end SymbolicLtl
