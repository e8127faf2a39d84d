import Mathlib.Logic.Function.Basic
import Mathlib.Tactic

/-! Output to files that are truncated when they are opened. What is written reaches
the directory when the stream is closed; a closed stream takes nothing. Paths and the
units written are parameters. -/
namespace CloudServer
namespace OutputStream

variable {π α : Type}

abbrev Files (π α : Type) := π → Option (List α)

structure Sink (π α : Type) where
  path : Option π
  buffer : List α
  deriving DecidableEq

def closed : Sink π α := ⟨none,[]⟩

def openTrunc [DecidableEq π] (fs : Files π α) (p : π) : Files π α := Function.update fs p (some [])

def opened (p : π) : Sink π α := ⟨some p,[]⟩

def Sink.isOpen (s : Sink π α) : Bool := s.path.isSome

def Sink.put (s : Sink π α) (l : List α) : Sink π α :=
  if s.isOpen then { s with buffer := s.buffer ++ l } else s

/-- The directory after the stream has been closed. -/
def Sink.flush [DecidableEq π] (s : Sink π α) (fs : Files π α) : Files π α :=
  match s.path with
  | some p => Function.update fs p (some ((fs p).getD [] ++ s.buffer))
  | none => fs

@[simp] theorem opened_put (p : π) (b l : List α) :
    Sink.put ⟨some p,b⟩ l = (⟨some p,b++l⟩ : Sink π α) := rfl

theorem flush_ne [DecidableEq π] {fs : Files π α} {p p' : π} (h : p' ≠ p) (b : List α) :
    Sink.flush ⟨some p,b⟩ fs p' = fs p' := Function.update_of_ne h _ _

end OutputStream
end CloudServer
