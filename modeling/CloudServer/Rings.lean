import Mathlib.Tactic

/-! Positions on a ring: the slot that lies so many places behind a given one, and
the list that a ring of buckets holds between two of them. -/
namespace CloudServer
namespace Rings

/-- The slot `j` places behind slot `f` on a ring of `n`. -/
def slot (n f j : ℕ) : ℕ := (f+j) % n

section Slots

variable {n f j : ℕ}

theorem slot_lt (hn : 0 < n) (f j : ℕ) : slot n f j < n := Nat.mod_lt _ hn

theorem slot_eq (hf : f < n) (hj : j ≤ n) : slot n f j = if f+j < n then f+j else f+j-n := by
  unfold slot
  split_ifs with h
  · exact Nat.mod_eq_of_lt h
  · rw [Nat.mod_eq_sub_mod (by omega),Nat.mod_eq_of_lt (by omega)]

theorem slot_zero (hf : f < n) : slot n f 0 = f := Nat.mod_eq_of_lt hf

theorem slot_slot (n f i j : ℕ) : slot n (slot n f i) j = slot n f (i+j) := by
  simp [slot,Nat.add_assoc]

theorem slot_self (hf : f < n) : slot n f n = f := by
  simp [slot,Nat.mod_eq_of_lt hf]

theorem slot_inj {i : ℕ} (hf : f < n) (hi : i < n) (hj : j < n) :
    slot n f i = slot n f j ↔ i = j := by
  rw [slot_eq hf hi.le,slot_eq hf hj.le]
  split_ifs <;> omega

theorem slot_mask {e : ℕ} (x : ℕ) (hn : n = 2^e) : (x+1) &&& (n-1) = slot n x 1 := by
  rw [hn,Nat.and_two_pow_sub_one_eq_mod,slot]

/-- How many places slot `i` lies behind slot `f`. -/
def behind (n f i : ℕ) : ℕ := (i+n-f) % n

theorem behind_slot (hf : f < n) (hj : j < n) : behind n f (slot n f j) = j := by
  rw [behind,slot_eq hf hj.le]
  split_ifs with h
  · rw [show f+j+n-f = j+n by omega,Nat.add_mod_right,Nat.mod_eq_of_lt hj]
  · rw [show f+j-n+n-f = j by omega,Nat.mod_eq_of_lt hj]

/-- A subtraction that wraps at a power of two still counts slots. -/
theorem distance_mask {e w : ℕ} (hn : n = 2^e) (hw : e ≤ w) (hf : f < n) (hj : j < n) :
    (slot n f j + 2^w - f) % 2^w &&& (n-1) = j := by
  have hdvd : n ∣ 2^w := hn ▸ pow_dvd_pow 2 hw
  obtain ⟨m,hm⟩ := hdvd
  have hpos : 0 < 2^w := by positivity
  have hle : n ≤ 2^w := Nat.le_of_dvd hpos ⟨m,hm⟩
  rw [hn,Nat.and_two_pow_sub_one_eq_mod,← hn,hm,Nat.mod_mul_right_mod]
  have hsum : slot n f j + n*m - f = (slot n f j + n - f) + n*(m-1) := by
    obtain ⟨m',rfl⟩ : ∃ m', m = m'+1 := ⟨m-1,by
      rcases m with _ | m
      · omega
      · rfl⟩
    simp only [Nat.mul_succ,Nat.add_sub_cancel]
    omega
  rw [hsum,Nat.add_mul_mod_self_left]
  exact behind_slot hf hj

end Slots

section Gather

variable {β : Type} {n f k : ℕ} {c : ℕ → List β}

/-- What the buckets from slot `f` to the slot `k` places behind it hold, in order. -/
def gather (n : ℕ) (c : ℕ → List β) (f k : ℕ) : List β :=
  (List.range (k+1)).flatMap fun j => c (slot n f j)

theorem gather_congr {d : ℕ → List β} (h : ∀ j ≤ k, c (slot n f j) = d (slot n f j)) :
    gather n c f k = gather n d f k := by
  have hmap : (List.range (k+1)).map (fun j => c (slot n f j)) =
      (List.range (k+1)).map fun j => d (slot n f j) :=
    List.map_congr_left fun j hj => h j (Nat.lt_succ_iff.mp (List.mem_range.mp hj))
  simp only [gather,List.flatMap,hmap]

theorem gather_succ (n : ℕ) (c : ℕ → List β) (f k : ℕ) :
    gather n c f (k+1) = gather n c f k ++ c (slot n f (k+1)) := by
  simp [gather,List.range_succ]

theorem gather_step (hf : f < n) (c : ℕ → List β) (k : ℕ) :
    gather n c f (k+1) = c f ++ gather n c (slot n f 1) k := by
  simp only [gather,List.range_succ_eq_map,List.flatMap_cons,slot_zero hf,List.map_cons,
    List.flatMap_map,slot_slot]
  simp [Nat.add_comm]

theorem gather_push (hf : f < n) (hk : k < n) (l : List β) :
    gather n (Function.update c (slot n f k) (c (slot n f k) ++ l)) f k =
      gather n c f k ++ l := by
  cases k with
  | zero => simp [gather]
  | succ k =>
    rw [gather_succ,gather_succ,Function.update_self,← List.append_assoc]
    congr 2
    apply gather_congr
    intro j hj
    rw [Function.update_of_ne]
    rw [Ne,slot_inj hf (by omega) hk]
    omega

theorem gather_pop {x : β} {cs : List β} (hf : f < n) (hk : k < n) (hc : c f = x::cs) :
    gather n c f k = x :: gather n (Function.update c f cs) f k := by
  cases k with
  | zero => simp [gather,slot_zero hf,hc]
  | succ k =>
    rw [gather_step hf,gather_step hf,hc,Function.update_self,List.cons_append]
    congr 2
    apply gather_congr
    intro j hj
    rw [slot_slot,Function.update_of_ne]
    intro h
    have := (slot_inj hf (by omega : 1+j < n) (by omega : 0 < n)).mp (h.trans (slot_zero hf).symm)
    omega

theorem gather_length (n : ℕ) (c : ℕ → List β) (f k : ℕ) :
    (gather n c f k).length = ∑ j ∈ Finset.range (k+1), (c (slot n f j)).length := by
  induction k with
  | zero => simp [gather]
  | succ k ih => rw [gather_succ,List.length_append,ih,Finset.sum_range_succ _ (k+1)]

end Gather
end Rings
end CloudServer
