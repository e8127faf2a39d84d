import Mathlib.Data.List.Basic
import Mathlib.Tactic

/-! Memory regions, `memcpy`, and 32-bit words in both byte orders.
A region is a total function on offsets: its prior content is arbitrary, and a
byte list is related to it by `Holds`. Nothing here knows what is stored. -/
namespace CloudServer
namespace ByteMemory

abbrev Bytes := List UInt8

abbrev Mem (α : Type) := ℕ → α

variable {α : Type}

def write (m : Mem α) (off : ℕ) (d : List α) : Mem α :=
  fun i => if off ≤ i then (d[i-off]?).getD (m i) else m i

def read (m : Mem α) (off n : ℕ) : List α := (List.range n).map fun i => m (off+i)

def copyPrefix (dst src : Mem α) (n : ℕ) : Mem α := fun i => if i < n then src i else dst i

def Holds (m : Mem α) (off : ℕ) (l : List α) : Prop := read m off l.length = l

@[simp] theorem read_length (m : Mem α) (off n : ℕ) : (read m off n).length = n := by
  simp [read]

@[simp] theorem read_zero (m : Mem α) (off : ℕ) : read m off 0 = [] := rfl

theorem read_add (m : Mem α) (off a b : ℕ) :
    read m off (a+b) = read m off a ++ read m (off+a) b := by
  simp [read,List.range_add,Function.comp_def,Nat.add_assoc]

theorem read_take (m : Mem α) (off : ℕ) {k n : ℕ} (h : k ≤ n) :
    (read m off n).take k = read m off k := by
  rw [← Nat.add_sub_of_le h,read_add,List.take_left' (read_length m off k)]

theorem read_congr {m m' : Mem α} {off n : ℕ} (h : ∀ i, off ≤ i → i < off+n → m i = m' i) :
    read m off n = read m' off n := by
  apply List.map_congr_left
  intro i hi
  have hin := List.mem_range.mp hi
  exact h _ (by omega) (by omega)

theorem write_apply_lt (m : Mem α) {off i : ℕ} (d : List α) (h : i < off) :
    write m off d i = m i := by
  simp [write,Nat.not_le.mpr h]

@[simp] theorem read_write_self (m : Mem α) (off : ℕ) (d : List α) :
    read (write m off d) off d.length = d := by
  apply List.ext_getElem (by simp)
  intro i hi hd
  simp [read,write,List.getElem?_eq_getElem hd]

theorem read_copy (m m' : Mem α) (off off' n : ℕ) :
    read (write m off (read m' off' n)) off n = read m' off' n := by
  have h := read_write_self m off (read m' off' n)
  rwa [read_length] at h

theorem apply_eq_of_read {m m' : Mem α} {off off' n : ℕ} (hn : n ≠ 0)
    (h : read m off n = read m' off' n) : m off = m' off' := by
  obtain ⟨k,rfl⟩ := Nat.exists_eq_succ_of_ne_zero hn
  simpa [read,List.range_succ_eq_map] using congrArg List.head? h

theorem read_write_part (m : Mem α) (d : List α) {off n : ℕ} (h : off+n ≤ d.length) :
    read (write m 0 d) off n = (d.drop off).take n := by
  apply List.ext_getElem (by simp; omega)
  intro i hi hd
  rw [read_length] at hi
  simp [read,write,List.getElem?_eq_getElem (show off+i < d.length by omega)]

theorem read_write_before (m : Mem α) (off : ℕ) (d : List α) {off' n : ℕ} (h : off'+n ≤ off) :
    read (write m off d) off' n = read m off' n :=
  read_congr fun i _ hi => write_apply_lt m d (by omega)

/-- Appending at the end of the used part extends the used part by the copied list. -/
theorem read_write_append (m : Mem α) (off : ℕ) (d : List α) :
    read (write m off d) 0 (off+d.length) = read m 0 off ++ d := by
  rw [read_add,read_write_before m off d (by omega),Nat.zero_add,read_write_self]

@[simp] theorem write_nil (m : Mem α) (off : ℕ) : write m off [] = m := by
  funext i
  simp [write]

theorem write_append (m : Mem α) (off : ℕ) (a b : List α) :
    write (write m off a) (off+a.length) b = write m off (a++b) := by
  funext i
  simp only [write]
  grind

@[simp] theorem holds_nil (m : Mem α) (off : ℕ) : Holds m off [] := rfl

theorem holds_append (m : Mem α) (off : ℕ) (a b : List α) :
    Holds m off (a++b) ↔ Holds m off a ∧ Holds m (off+a.length) b := by
  unfold Holds
  rw [List.length_append,read_add]
  constructor
  · intro h
    exact List.append_inj h (by simp)
  · rintro ⟨ha,hb⟩
    rw [ha,hb]

theorem holds_write_self (m : Mem α) (off : ℕ) (d : List α) : Holds (write m off d) off d :=
  read_write_self m off d

theorem read_holds {m : Mem α} {p : List α} (h : Holds m 0 p) {off n : ℕ}
    (hn : off+n ≤ p.length) : read m off n = (p.drop off).take n := by
  obtain ⟨k,hk⟩ := Nat.exists_eq_add_of_le hn
  have hsplit : p = read m 0 off ++ (read m off n ++ read m (off+n) k) := by
    have hall : read m 0 p.length = p := h
    rwa [hk,Nat.add_assoc,read_add,read_add,Nat.zero_add,eq_comm] at hall
  rw [hsplit,List.drop_left' (read_length m 0 off),List.take_left' (read_length m off n)]

theorem flatten_length_of_uniform {rs : List (List α)} {n : ℕ} (h : ∀ r ∈ rs, r.length = n) :
    rs.flatten.length = n*rs.length := by
  rw [List.length_flatten,List.map_congr_left h,List.map_const',List.sum_replicate,smul_eq_mul,
    Nat.mul_comm]

theorem read_record {m : Mem α} {rs : List (List α)} {n : ℕ} (hm : Holds m 0 rs.flatten)
    (hlen : ∀ r ∈ rs, r.length = n) {i : ℕ} (hi : i < rs.length) : read m (n*i) n = rs[i] := by
  have hsplit : rs.flatten = (rs.take i).flatten ++ (rs[i] ++ (rs.drop (i+1)).flatten) := by
    rw [← List.flatten_cons,← List.drop_eq_getElem_cons hi,← List.flatten_append,
      List.take_append_drop]
  rw [hsplit] at hm
  have hrest := ((holds_append m 0 _ _).mp hm).2
  have hrec := ((holds_append m _ _ _).mp hrest).1
  rw [flatten_length_of_uniform fun r hr => hlen r (List.mem_of_mem_take hr),List.length_take,
    Nat.min_eq_left (Nat.le_of_lt hi),Nat.zero_add] at hrec
  unfold Holds at hrec
  rwa [hlen rs[i] (List.getElem_mem hi)] at hrec

theorem holds_copyPrefix {src : Mem α} {l : List α} (dst : Mem α) {n : ℕ} (hn : l.length ≤ n)
    (h : Holds src 0 l) : Holds (copyPrefix dst src n) 0 l := by
  have hsame : read (copyPrefix dst src n) 0 l.length = read src 0 l.length := by
    apply read_congr
    intro i _ hi
    simp [copyPrefix,show i < n by omega]
  exact hsame.trans h

def u32 (n : ℕ) : ℕ := n % 2^32

theorem u32_of_lt {n : ℕ} (h : n < 2^32) : u32 n = n := by
  rw [u32,Nat.mod_eq_of_lt h]

def beBytes (n : ℕ) : Bytes :=
  [UInt8.ofNat (n >>> 24),UInt8.ofNat (n >>> 16),UInt8.ofNat (n >>> 8),UInt8.ofNat n]

/-- The value of four bytes of a region, most significant byte first; a left
shift is a multiplication. -/
def beWord (m : Mem UInt8) (off : ℕ) : ℕ :=
  (m (off+3)).toNat + (m (off+2)).toNat*2^8 + (m (off+1)).toNat*2^16 + (m off).toNat*2^24

def leBytes (n : ℕ) : Bytes :=
  [UInt8.ofNat n,UInt8.ofNat (n >>> 8),UInt8.ofNat (n >>> 16),UInt8.ofNat (n >>> 24)]

def leBytes64 (n : ℕ) : Bytes := leBytes n ++ leBytes (n >>> 32)

def leWord : Bytes → ℕ
  | [] => 0
  | b::bs => b.toNat + 256*leWord bs

@[simp] theorem beBytes_length (n : ℕ) : (beBytes n).length = 4 := rfl
@[simp] theorem leBytes_length (n : ℕ) : (leBytes n).length = 4 := rfl

theorem word_digits (n : ℕ) :
    n % 256 + 256*(n/256 % 256 + 256*(n/65536 % 256 + 256*(n/16777216 % 256))) = u32 n := by
  unfold u32
  omega

theorem beWord_of_holds {m : Mem UInt8} {off n : ℕ} (h : Holds m off (beBytes n)) :
    beWord m off = u32 n := by
  have hbytes : [m off,m (off+1),m (off+2),m (off+3)] = beBytes n := h
  simp only [beBytes,List.cons.injEq,and_true] at hbytes
  obtain ⟨h0,h1,h2,h3⟩ := hbytes
  rw [beWord,h0,h1,h2,h3,← word_digits]
  simp only [UInt8.toNat_ofNat',Nat.shiftRight_eq_div_pow]
  omega

theorem leWord_leBytes (n : ℕ) : leWord (leBytes n) = u32 n := by
  rw [← word_digits]
  simp only [leBytes,leWord,UInt8.toNat_ofNat',Nat.shiftRight_eq_div_pow]
  omega

theorem leBytes_leWord {w : Bytes} (hw : w.length = 4) : leBytes (leWord w) = w := by
  match w, hw with
  | [a,b,c,d], _ =>
    have ha := a.toNat_lt
    have hb := b.toNat_lt
    have hc := c.toNat_lt
    have hd := d.toNat_lt
    simp only [leBytes,leWord,List.cons.injEq,and_true,← UInt8.toNat_inj,UInt8.toNat_ofNat',
      Nat.shiftRight_eq_div_pow]
    omega

theorem leWord_append (a b : Bytes) : leWord (a++b) = leWord a + 256^a.length*leWord b := by
  induction a with
  | nil => simp [leWord]
  | cons c a ih =>
    simp only [List.cons_append,leWord,ih,List.length_cons,pow_succ]
    ring

theorem leWord_lt (b : Bytes) : leWord b < 256^b.length := by
  induction b with
  | nil => simp [leWord]
  | cons c b ih =>
    have hc : c.toNat < 256 := c.toNat_lt
    simp only [leWord,List.length_cons,pow_succ]
    omega

theorem leWord_leBytes64 {n : ℕ} (h : n < 2^64) : leWord (leBytes64 n) = n := by
  rw [leBytes64,leWord_append,leWord_leBytes,leWord_leBytes,leBytes_length,Nat.shiftRight_eq_div_pow,
    u32,u32]
  omega

end ByteMemory
end CloudServer
