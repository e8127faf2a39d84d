import Mathlib.Tactic

/-! A catalog of keyed data spread over named groups. A view assigns to every place
at most one group, a name with a list of (key, datum) entries; an index maps keys
to names. `Consistent` says that index and view describe the same entries, each of
them once. Places, names, keys and data are arbitrary types. -/
namespace CloudServer
namespace Catalog

variable {π ρ ι κ δ : Type}

abbrev View (π ι κ δ : Type) := π → Option (ι × List (κ × δ))

/-- Names tell places apart, the index knows exactly the entries that are stored,
no group repeats a key, and every datum has the digest it is stored under. -/
structure Consistent (digest : δ → κ) (view : View π ι κ δ) (index : κ → Option ι) : Prop where
  distinct : ∀ a b g g', view a = some g → view b = some g' → g.1 = g'.1 → a = b
  bound : ∀ a g p, view a = some g → p ∈ g.2 → index p.1 = some g.1
  located : ∀ k i, index k = some i → ∃ a g, view a = some g ∧ g.1 = i ∧ k ∈ g.2.map Prod.fst
  nodup : ∀ a g, view a = some g → (g.2.map Prod.fst).Nodup
  digests : ∀ a g p, view a = some g → p ∈ g.2 → digest p.2 = p.1

def entryAt (view : View π ι κ δ) (a : π × ℕ) : Option (ι × κ × δ) :=
  (view a.1).bind fun g => (g.2[a.2]?).map fun p => (g.1,p)

theorem entryAt_eq_some {view : View π ι κ δ} {a : π} {j : ℕ} {i : ι} {p : κ × δ} :
    entryAt view (a,j) = some (i,p) ↔ ∃ ps, view a = some (i,ps) ∧ ps[j]? = some p := by
  constructor
  · intro h
    obtain ⟨g,hg,hp⟩ := Option.bind_eq_some_iff.mp h
    obtain ⟨q,hq,heq⟩ := Option.map_eq_some_iff.mp hp
    simp only [Prod.mk.injEq] at heq
    exact ⟨g.2,by rw [hg,← heq.1],by rw [hq,heq.2]⟩
  · rintro ⟨ps,hv,hp⟩
    simp [entryAt,hv,hp]

def Has (view : View π ι κ δ) (i : ι) (p : κ × δ) : Prop := ∃ a ps, view a = some (i,ps) ∧ p ∈ ps

theorem has_iff_entryAt {view : View π ι κ δ} {i : ι} {p : κ × δ} :
    Has view i p ↔ ∃ a, entryAt view a = some (i,p) := by
  constructor
  · rintro ⟨a,ps,hv,hp⟩
    obtain ⟨j,hj⟩ := List.mem_iff_getElem?.mp hp
    exact ⟨(a,j),entryAt_eq_some.mpr ⟨ps,hv,hj⟩⟩
  · rintro ⟨⟨a,j⟩,h⟩
    obtain ⟨ps,hv,hp⟩ := entryAt_eq_some.mp h
    exact ⟨a,ps,hv,List.mem_of_getElem? hp⟩

section Update

variable [DecidableEq π] {view : View π ι κ δ} {i : ι} {p : κ × δ}

theorem Has.update {a : π} {o : Option (ι × List (κ × δ))} (h : Has view i p)
    (ho : ∀ ps, view a = some (i,ps) → p ∈ ps → ∃ qs, o = some (i,qs) ∧ p ∈ qs) :
    Has (Function.update view a o) i p := by
  obtain ⟨b,ps,hv,hp⟩ := h
  by_cases hba : b = a
  · subst hba
    obtain ⟨qs,rfl,hq⟩ := ho ps hv hp
    exact ⟨b,qs,Function.update_self _ _ _,hq⟩
  · exact ⟨b,ps,by rwa [Function.update_of_ne hba],hp⟩

theorem Has.move {a b : π} {g : ι × List (κ × δ)} (h : Has view i p) (ha : view a = some g)
    (hb : view b = none) (o : Option (ι × List (κ × δ))) :
    Has (Function.update (Function.update view a o) b (some g)) i p := by
  obtain ⟨c,ps,hv,hp⟩ := h
  by_cases hca : c = a
  · subst hca
    obtain rfl : g = (i,ps) := Option.some.inj (ha.symm.trans hv)
    exact ⟨b,ps,Function.update_self _ _ _,hp⟩
  · have hcb : c ≠ b := by
      rintro rfl
      simp [hb] at hv
    exact ⟨c,ps,by rwa [Function.update_of_ne hcb,Function.update_of_ne hca],hp⟩

end Update

theorem consistent_empty (digest : δ → κ) :
    Consistent digest (fun _ : π => (none : Option (ι × List (κ × δ)))) fun _ => none := by
  constructor <;> simp

namespace Consistent

variable {digest : δ → κ} {view : View π ι κ δ} {index : κ → Option ι}

theorem entry (h : Consistent digest view index) {a : π × ℕ} {i : ι} {k : κ} {d : δ}
    (he : entryAt view a = some (i,k,d)) : index k = some i ∧ digest d = k := by
  obtain ⟨a,j⟩ := a
  obtain ⟨ps,hv,hp⟩ := entryAt_eq_some.mp he
  have hmem : (k,d) ∈ ps := List.mem_of_getElem? hp
  exact ⟨h.bound a _ (k,d) hv hmem,h.digests a _ (k,d) hv hmem⟩

/-- A key is indexed exactly when one entry of one group carries it. -/
theorem indexed_iff (h : Consistent digest view index) (k : κ) :
    (∃ i, index k = some i) ↔ ∃! a : π × ℕ, ∃ i d, entryAt view a = some (i,k,d) := by
  constructor
  · rintro ⟨i,hi⟩
    obtain ⟨a,g,hv,rfl,hk⟩ := h.located k i hi
    obtain ⟨p,hp,rfl⟩ := List.mem_map.mp hk
    obtain ⟨j,hj⟩ := List.mem_iff_getElem?.mp hp
    refine ⟨(a,j),⟨g.1,p.2,entryAt_eq_some.mpr ⟨g.2,hv,hj⟩⟩,?_⟩
    rintro ⟨b,l⟩ ⟨i',d',he⟩
    have hi' := (h.entry he).1
    rw [hi] at hi'
    obtain ⟨qs,hb,hl⟩ := entryAt_eq_some.mp he
    obtain rfl := h.distinct a b g (i',qs) hv hb (Option.some.inj hi')
    obtain rfl : g = (i',qs) := Option.some.inj (hv.symm.trans hb)
    have hnodup := h.nodup a _ hv
    have hsame : (qs.map Prod.fst)[l]? = (qs.map Prod.fst)[j]? := by
      simp [List.getElem?_map,hl,hj]
    have hlt : l < (qs.map Prod.fst).length := by
      simpa using (List.getElem?_eq_some_iff.mp hl).1
    rw [(List.getElem?_inj hlt hnodup).mp hsame]
  · rintro ⟨a,⟨i,d,he⟩,_⟩
    exact ⟨i,(h.entry he).1⟩

theorem has_unique (h : Consistent digest view index) {i i' : ι} {k : κ} {d d' : δ}
    (hd : Has view i (k,d)) (hd' : Has view i' (k,d')) : i' = i ∧ d' = d := by
  obtain ⟨a,ha⟩ := has_iff_entryAt.mp hd
  obtain ⟨b,hb⟩ := has_iff_entryAt.mp hd'
  obtain ⟨_,_,huniq⟩ := (h.indexed_iff k).mp ⟨i,(h.entry ha).1⟩
  have hab : b = a := (huniq b ⟨i',d',hb⟩).trans (huniq a ⟨i,d,ha⟩).symm
  subst hab
  simpa using hb.symm.trans ha

variable [DecidableEq π]

theorem update_cases {a b : π} {e g : ι × List (κ × δ)}
    (h : Function.update view a (some e) b = some g) :
    (b = a ∧ g = e) ∨ (b ≠ a ∧ view b = some g) := by
  by_cases hba : b = a
  · subst hba
    simp only [Function.update_self,Option.some.injEq] at h
    exact Or.inl ⟨rfl,h.symm⟩
  · exact Or.inr ⟨hba,by simpa [hba] using h⟩

theorem addEmpty (h : Consistent digest view index) {a : π} {i : ι} (ha : view a = none)
    (hi : ∀ b g, view b = some g → g.1 ≠ i) :
    Consistent digest (Function.update view a (some (i,[]))) index := by
  constructor
  · intro b b' g g' hb hb' hn
    rcases update_cases hb with ⟨rfl,rfl⟩ | ⟨_,hv⟩ <;> rcases update_cases hb' with ⟨rfl,rfl⟩ | ⟨_,hv'⟩
    · rfl
    · exact absurd hn.symm (hi b' g' hv')
    · exact absurd hn (hi b g hv)
    · exact h.distinct b b' g g' hv hv' hn
  · intro b g p hb hp
    rcases update_cases hb with ⟨rfl,rfl⟩ | ⟨_,hv⟩
    · simp at hp
    · exact h.bound b g p hv hp
  · intro k j hk
    obtain ⟨b,g,hv,hname,hmem⟩ := h.located k j hk
    have hba : b ≠ a := by
      rintro rfl
      simp [ha] at hv
    exact ⟨b,g,by simpa [hba] using hv,hname,hmem⟩
  · intro b g hb
    rcases update_cases hb with ⟨rfl,rfl⟩ | ⟨_,hv⟩
    · simp
    · exact h.nodup b g hv
  · intro b g p hb hp
    rcases update_cases hb with ⟨rfl,rfl⟩ | ⟨_,hv⟩
    · simp at hp
    · exact h.digests b g p hv hp

theorem dropEmpty (h : Consistent digest view index) {a : π} {i : ι} (ha : view a = some (i,[])) :
    Consistent digest (Function.update view a none) index := by
  have hold : ∀ b g, Function.update view a none b = some g → view b = some g := by
    intro b g hb
    by_cases hba : b = a
    · subst hba
      simp at hb
    · simpa [hba] using hb
  refine ⟨fun b b' g g' hb hb' => h.distinct b b' g g' (hold b g hb) (hold b' g' hb'),
    fun b g p hb => h.bound b g p (hold b g hb),?_,fun b g hb => h.nodup b g (hold b g hb),
    fun b g p hb => h.digests b g p (hold b g hb)⟩
  intro k j hk
  obtain ⟨b,g,hv,hname,hmem⟩ := h.located k j hk
  have hba : b ≠ a := by
    rintro rfl
    obtain rfl : g = (i,[]) := Option.some.inj (hv.symm.trans ha)
    simp at hmem
  exact ⟨b,g,by simpa [hba] using hv,hname,hmem⟩

/-- A group may move to a free place. -/
theorem move (h : Consistent digest view index) {a b : π} {g : ι × List (κ × δ)}
    (ha : view a = some g) (hb : view b = none) :
    Consistent digest (Function.update (Function.update view a none) b (some g)) index := by
  -- every place of the new view reads a place of the old one
  have hold : ∀ c e, Function.update (Function.update view a none) b (some g) c = some e →
      view (Equiv.swap a b c) = some e := by
    intro c e hc
    by_cases hcb : c = b
    · subst hcb
      rw [Equiv.swap_apply_right,ha]
      simpa using hc
    · by_cases hca : c = a
      · subst hca
        simp [hcb] at hc
      · rw [Equiv.swap_apply_of_ne_of_ne hca hcb]
        simpa [hca,hcb] using hc
  have hnew : ∀ c e, view c = some e →
      Function.update (Function.update view a none) b (some g) (Equiv.swap a b c) = some e := by
    intro c e hc
    by_cases hca : c = a
    · subst hca
      rw [Equiv.swap_apply_left,Function.update_self,← hc,ha]
    · by_cases hcb : c = b
      · subst hcb
        simp [hb] at hc
      · rw [Equiv.swap_apply_of_ne_of_ne hca hcb]
        simpa [hca,hcb] using hc
  refine ⟨?_,fun c e p hc => h.bound _ e p (hold c e hc),?_,fun c e hc => h.nodup _ e (hold c e hc),
    fun c e p hc => h.digests _ e p (hold c e hc)⟩
  · intro c c' e e' hc hc' hn
    exact (Equiv.swap a b).injective (h.distinct _ _ e e' (hold c e hc) (hold c' e' hc') hn)
  · intro k j hk
    obtain ⟨c,e,hv,hname,hmem⟩ := h.located k j hk
    exact ⟨_,e,hnew c e hv,hname,hmem⟩

/-- An unindexed key may be appended to a group and bound to the group's name. -/
theorem append (h : Consistent digest view index) {a : π} {i : ι} {ps : List (κ × δ)}
    {k : κ} {d : δ} {index' : κ → Option ι} (ha : view a = some (i,ps)) (hk : index k = none)
    (hd : digest d = k) (hself : index' k = some i) (hother : ∀ k', k' ≠ k → index' k' = index k') :
    Consistent digest (Function.update view a (some (i,ps ++ [(k,d)]))) index' := by
  have hne : ∀ b g p, view b = some g → p ∈ g.2 → p.1 ≠ k := by
    intro b g p hb hp hpk
    have hbound := h.bound b g p hb hp
    simp [hpk,hk] at hbound
  have hname : ∀ b g, Function.update view a (some (i,ps ++ [(k,d)])) b = some g →
      ∃ g', view b = some g' ∧ g'.1 = g.1 := by
    intro b g hb
    rcases update_cases hb with ⟨rfl,rfl⟩ | ⟨_,hv⟩
    · exact ⟨_,ha,rfl⟩
    · exact ⟨g,hv,rfl⟩
  constructor
  · intro b b' g g' hb hb' hn
    obtain ⟨e,he,hen⟩ := hname b g hb
    obtain ⟨e',he',hen'⟩ := hname b' g' hb'
    exact h.distinct b b' e e' he he' (hen.trans (hn.trans hen'.symm))
  · intro b g p hb hp
    rcases update_cases hb with ⟨rfl,rfl⟩ | ⟨_,hv⟩
    · rcases List.mem_append.mp hp with hin | hin
      · rw [hother _ (hne _ _ p ha hin)]
        exact h.bound _ (i,ps) p ha hin
      · obtain rfl := List.mem_singleton.mp hin
        exact hself
    · rw [hother _ (hne b g p hv hp)]
      exact h.bound b g p hv hp
  · intro k' j hk'
    by_cases hkk : k' = k
    · subst hkk
      refine ⟨a,_,Function.update_self _ _ _,?_,by simp⟩
      exact Option.some.inj (hself.symm.trans hk')
    · rw [hother k' hkk] at hk'
      obtain ⟨b,g,hv,hgname,hmem⟩ := h.located k' j hk'
      by_cases hba : b = a
      · subst hba
        obtain rfl : g = (i,ps) := Option.some.inj (hv.symm.trans ha)
        refine ⟨b,_,Function.update_self _ _ _,hgname,?_⟩
        simp only [List.map_append,List.mem_append]
        exact Or.inl hmem
      · exact ⟨b,g,by simpa [hba] using hv,hgname,hmem⟩
  · intro b g hb
    rcases update_cases hb with ⟨rfl,rfl⟩ | ⟨_,hv⟩
    · have hfresh : k ∉ ps.map Prod.fst := by
        intro hin
        obtain ⟨p,hp,hpk⟩ := List.mem_map.mp hin
        exact hne _ _ p ha hp hpk
      simp only [List.map_append,List.map_cons,List.map_nil]
      exact List.Nodup.append (h.nodup _ _ ha) (List.nodup_singleton k)
        (List.disjoint_singleton.mpr hfresh)
    · exact h.nodup b g hv
  · intro b g p hb hp
    rcases update_cases hb with ⟨rfl,rfl⟩ | ⟨_,hv⟩
    · rcases List.mem_append.mp hp with hin | hin
      · exact h.digests _ (i,ps) p ha hin
      · obtain rfl := List.mem_singleton.mp hin
        exact hd
    · exact h.digests b g p hv hp

omit [DecidableEq π] in
/-- A second view of the same groups is consistent with the same index, when at
most one of its places stands for a place of the first. -/
theorem transfer (h : Consistent digest view index) {view' : View ρ ι κ δ} {R : ρ → π → Prop}
    (hinj : ∀ a a' b, R a b → R a' b → a = a')
    (hfrom : ∀ a g, view' a = some g → ∃ b, R a b ∧ view b = some g)
    (hto : ∀ b g, view b = some g → ∃ a, view' a = some g) :
    Consistent digest view' index := by
  refine ⟨?_,?_,?_,?_,?_⟩
  · intro a a' g g' ha ha' hn
    obtain ⟨b,hab,hb⟩ := hfrom a g ha
    obtain ⟨b',hab',hb'⟩ := hfrom a' g' ha'
    obtain rfl := h.distinct b b' g g' hb hb' hn
    exact hinj a a' b hab hab'
  · intro a g p ha hp
    obtain ⟨b,_,hb⟩ := hfrom a g ha
    exact h.bound b g p hb hp
  · intro k i hk
    obtain ⟨b,g,hb,hname,hmem⟩ := h.located k i hk
    obtain ⟨a,ha⟩ := hto b g hb
    exact ⟨a,g,ha,hname,hmem⟩
  · intro a g ha
    obtain ⟨b,_,hb⟩ := hfrom a g ha
    exact h.nodup b g hb
  · intro a g p ha hp
    obtain ⟨b,_,hb⟩ := hfrom a g ha
    exact h.digests b g p hb hp

end Consistent
end Catalog
end CloudServer
