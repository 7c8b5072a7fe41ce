import AgentBlocks.Program.Error

/-!
Walks over a block graph and the trail that they leave. A statement has one position in the
program, so a walk keeps the statements that it has placed. An expression may stand in several
slots but not inside itself, so a walk keeps the expressions that are being rendered. A walk that
fails leaves its trail all the same.
-/
namespace AgentBlocks

/-- What a walk keeps: the statements placed so far, last first, and the expressions that are being
rendered, innermost first. -/
structure Trail where
  placed : List String
  pending : List String
deriving DecidableEq

namespace Trail

def start : Trail := ⟨[], []⟩

def holds (t : Trail) (id : String) : Bool := t.pending.contains id || t.placed.contains id

def place (t : Trail) (id : String) : Trail := { t with placed := id :: t.placed }

def enter (t : Trail) (id : String) : Trail := { t with pending := id :: t.pending }

def leave (t : Trail) : Trail := { t with pending := t.pending.tail }

end Trail

/-- A walk: from the trail so far to a result or an error and the trail after it, or to nothing when
blocks would be rendered too deep inside each other. -/
def Walk (α : Type) : Type := Trail → Option (Except GenerateError α × Trail)

namespace Walk

variable {α β : Type}

def result (r : Except GenerateError α) : Walk α := fun t => some (r, t)

/-- Goes on with the result of a walk; an error is handed on. -/
def andThen (w : Walk α) (next : α → Walk β) : Walk β := fun t =>
  match w t with
  | none => none
  | some (.error e, t') => some (.error e, t')
  | some (.ok a, t') => next a t'

instance : Monad Walk where
  pure a := result (.ok a)
  bind := andThen

def tooDeep : Walk α := fun _ => none

/-- Makes an error of a walk its result. -/
def attempt (w : Walk α) : Walk (Except GenerateError α) := fun t =>
  (w t).map fun (r, t') => (.ok r, t')

/-- Fails when a block has been placed or is being rendered. -/
def checkFree (id : String) : Walk Unit := fun t =>
  if t.holds id then some (.error (.cyclicGraph id), t) else some (.ok (), t)

/-- Places a statement that has no position yet. -/
def place (id : String) : Walk Unit := do
  checkFree id
  fun t => some (.ok (), t.place id)

/-- Walks inside the rendering of an expression. -/
def inside (id : String) (w : Walk α) : Walk α := fun t =>
  (w (t.enter id)).map fun (r, t') => (r, t'.leave)

end Walk

end AgentBlocks
