import CloudServer.ByteMemory

/-! Unformatted input from a file stream. A read that meets the end of the file
delivers what is left and raises the end and failure flags; a stream whose flags
are raised delivers nothing more. Variables that are read into keep the bytes
that were not delivered. -/
namespace CloudServer
namespace InputStream

variable {α : Type}

structure Stream (α : Type) where
  rest : List α
  eof : Bool
  fail : Bool
  deriving DecidableEq

def opened (content : List α) : Stream α := ⟨content,false,false⟩

/-- One unformatted read of `n` units: the delivered units and the new stream. -/
def get (s : Stream α) (n : ℕ) : List α × Stream α :=
  if s.eof || s.fail then ([],{ s with fail := true })
  else if s.rest.length < n then (s.rest,⟨[],true,true⟩)
  else (s.rest.take n,{ s with rest := s.rest.drop n })

def overwrite (old got : List α) : List α := got ++ old.drop got.length

def resize (s : List α) (n : ℕ) (fill : α) : List α :=
  s.take n ++ List.replicate (n-s.length) fill

@[simp] theorem resize_length (s : List α) (n : ℕ) (fill : α) : (resize s n fill).length = n := by
  simp only [resize,List.length_append,List.length_take,List.length_replicate]
  omega

theorem overwrite_of_length {old got : List α} (h : old.length = got.length) :
    overwrite old got = got := by
  simp [overwrite,← h]

theorem get_append (a b : List α) : get (opened (a++b)) a.length = (a,opened b) := by
  simp [get,opened]

theorem get_append_of_length {a b : List α} {n : ℕ} (h : a.length = n) :
    get (opened (a++b)) n = (a,opened b) := h ▸ get_append a b

theorem get_end (n : ℕ) (hn : 0 < n) : get (opened ([] : List α)) n = ([],⟨[],true,true⟩) := by
  simp [get,opened,hn]

theorem get_short {l : List α} {n : ℕ} (h : l.length < n) : get (opened l) n = (l,⟨[],true,true⟩) := by
  simp [get,opened,h]

theorem get_full {l : List α} {n : ℕ} (h : n ≤ l.length) :
    get (opened l) n = (l.take n,opened (l.drop n)) := by
  simp [get,opened,Nat.not_lt.mpr h]

end InputStream
end CloudServer
