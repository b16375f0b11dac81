import PagedDb.Foundation.KeyTree

/-!
# A key of a search tree changed

Two neighbouring children of a node exchange keys, and the key between them moves.
The order of the nodes stays, and what belongs under any other node still does.
-/

namespace PagedDb.KeyTree

variable {ν κ : Type*} {T T' : KeyTree ν κ} {rank : ν → ℕ} {a b c n P R first : ν} {k k' v w : κ}
  {pre post : List (κ × ν)}

/-- `T'` is `T` with another key in front of the child `R` of `P`. -/
structure Rekeys (T T' : KeyTree ν κ) (rank : ν → ℕ) (P R first : ν) (k k' : κ)
    (pre post : List (κ × ν)) : Prop where
  balanced : T.Balanced rank
  before : T.node P = some (first, pre ++ (k, R) :: post)
  after : T'.node P = some (first, pre ++ (k', R) :: post)
  others : ∀ n, n ≠ P → T'.node n = T.node n

theorem Separates.under_left (h : T.Separates k a b) (hc : T.Under a c) : T.Separates k c b := by
  obtain ⟨m, f, es, r, es', hm, ⟨x, hx, hxa⟩, hb⟩ := h
  exact ⟨m, f, es, r, es', hm, ⟨x, hx, hxa.trans hc⟩, hb⟩

theorem Separates.under_right (h : T.Separates k b a) (hc : T.Under a c) : T.Separates k b c := by
  obtain ⟨m, f, es, r, es', hm, hb, ⟨x, hx, hxa⟩⟩ := h
  exact ⟨m, f, es, r, es', hm, hb, ⟨x, hx, hxa.trans hc⟩⟩

section Order

variable [LinearOrder κ]

theorem InRange.parent (hv : T.InRange c v) (hchild : T.Child n c) : T.InRange n v := by
  have hunder : T.Under n c := Relation.ReflTransGen.single hchild
  exact fun w b => ⟨fun hs => (hv w b).1 (hs.under_left hunder),
    fun hs => (hv w b).2 (hs.under_right hunder)⟩

theorem InRange.child (hv : T.InRange n v) (hT : T.Balanced rank)
    (hnode : T.node n = some (first, pre ++ post)) (hpre : ∀ e ∈ pre, e.1 ≤ v)
    (hpost : ∀ e ∈ post, v ≤ e.1) : T.InRange (lastChild first pre) v := by
  intro w b
  constructor
  · intro hs
    rcases hs.of_left hT hnode with hs | ⟨e, he, rfl⟩
    · exact (hv w b).1 hs
    · exact hpost e he
  · intro hs
    rcases hs.of_right hT hnode with hs | ⟨e, he, rfl⟩
    · exact (hv w b).2 hs
    · exact hpre e he

end Order

def setNode [DecidableEq ν] (T : KeyTree ν κ) (P first : ν) (entries : List (κ × ν)) :
    KeyTree ν κ := ⟨Function.update T.node P (some (first, entries))⟩

theorem setNode_rekeys [DecidableEq ν] (hT : T.Balanced rank)
    (hnode : T.node P = some (first, pre ++ (k, R) :: post)) (k' : κ) :
    T.Rekeys (T.setNode P first (pre ++ (k', R) :: post)) rank P R first k k' pre post :=
  ⟨hT, hnode, Function.update_self .., fun _ hn => Function.update_of_ne hn ..⟩

namespace Rekeys

variable (h : T.Rekeys T' rank P R first k k' pre post)

include h

theorem symm_of (hT' : T'.Balanced rank) : T'.Rekeys T rank P R first k' k pre post :=
  ⟨hT', h.after, h.before, fun n hn => (h.others n hn).symm⟩

theorem child_iff : T'.Child n c ↔ T.Child n c := by
  by_cases hn : n = P
  · subst hn
    simp only [Child, h.before, h.after, Option.some.injEq, Prod.mk.injEq]
    constructor
    · rintro ⟨_, _, ⟨rfl, rfl⟩, hc⟩
      exact ⟨_, _, ⟨rfl, rfl⟩, by simpa using hc⟩
    · rintro ⟨_, _, ⟨rfl, rfl⟩, hc⟩
      exact ⟨_, _, ⟨rfl, rfl⟩, by simpa using hc⟩
  · simp only [Child, h.others n hn]

theorem node_isSome_iff : (T'.node n).isSome ↔ (T.node n).isSome := by
  by_cases hn : n = P
  · subst hn
    simp [h.before, h.after]
  · rw [h.others n hn]

theorem under_iff : T'.Under a b ↔ T.Under a b := by
  have heq : T'.Child = T.Child := by
    funext n c
    exact propext h.child_iff
  rw [Under, Under, heq]

theorem balanced_after : T'.Balanced rank where
  nodup n f es hn := by
    by_cases hnP : n = P
    · subst hnP
      rw [h.after] at hn
      cases hn
      have hnodup := h.balanced.nodup n first _ h.before
      simpa using hnodup
    · rw [h.others n hnP] at hn
      exact h.balanced.nodup n f es hn
  parent m n c hm hn := h.balanced.parent m n c (h.child_iff.mp hm) (h.child_iff.mp hn)
  rank_child n c hc := h.balanced.rank_child n c (h.child_iff.mp hc)
  rank_leaf n hn := by
    apply h.balanced.rank_leaf
    rw [← Option.not_isSome_iff_eq_none] at hn ⊢
    rwa [← h.node_isSome_iff]

/-- What separates two nodes did so before, or is the new key between children on its two sides. -/
theorem separates_cases (hs : T'.Separates w a b) : T.Separates w a b ∨
    (w = k' ∧ (∃ c ∈ first :: pre.map Prod.snd, T.Under c a) ∧
      ∃ c ∈ R :: post.map Prod.snd, T.Under c b) := by
  obtain ⟨n, f, es, m, es', hn, ⟨c, hc, hca⟩, d, hd, hdb⟩ := hs
  rw [h.under_iff] at hca hdb
  by_cases hnP : n = P
  · subst hnP
    obtain ⟨rfl, heq⟩ := Prod.mk.inj (Option.some.inj (h.after.symm.trans hn))
    have hbefore := h.before
    rcases entry_cases heq with ⟨l, rfl, rfl⟩ | ⟨l, rfl, hl⟩
    · -- a key in front of the new one
      rw [List.append_assoc] at hbefore
      refine .inl ⟨n, first, es, m, l ++ (k, R) :: post, hbefore, ⟨c, hc, hca⟩, d, ?_, hdb⟩
      simpa using hd
    · cases l with
      | nil =>
        obtain ⟨heq', rfl⟩ := List.cons.inj hl
        obtain ⟨rfl, rfl⟩ := Prod.mk.inj heq'
        rw [List.append_nil] at hc
        exact .inr ⟨rfl, ⟨c, hc, hca⟩, d, hd, hdb⟩
      | cons e l =>
        obtain ⟨rfl, rfl⟩ := List.cons.inj hl
        refine .inl ⟨n, first, pre ++ (k, R) :: l, m, es', ?_, ⟨c, ?_, hca⟩, d, hd, hdb⟩
        · rw [hbefore, List.append_assoc]
          rfl
        · simpa using hc
  · rw [h.others n hnP] at hn
    exact .inl ⟨n, f, es, m, es', hn, ⟨c, hc, hca⟩, d, hd, hdb⟩

theorem before_of (hab : T'.Before a b) : T.Before a b := by
  obtain ⟨w, hs⟩ := hab
  rcases h.separates_cases hs with hs | ⟨-, hc, hd⟩
  · exact ⟨w, hs⟩
  · exact ⟨k, P, first, pre, R, post, h.before, hc, hd⟩

theorem before_iff : T'.Before a b ↔ T.Before a b :=
  ⟨h.before_of, (h.symm_of h.balanced_after).before_of⟩

section Order

variable [LinearOrder κ]

/-- Under a child that is not next to the new key nothing changes, if the keys stay in order. -/
theorem inRange_other (hpre : ∀ e ∈ pre, e.1 ≤ k') (hpost : ∀ e ∈ post, k' ≤ e.1)
    (hleft : ¬ T.Under (lastChild first pre) a) (hright : ¬ T.Under R a) (ha : T.InRange a v) :
    T'.InRange a v := by
  intro w b
  constructor
  · intro hs
    rcases h.separates_cases hs with hs | ⟨rfl, ⟨c, hc, hca⟩, -⟩
    · exact (ha w b).1 hs
    · -- the key in front of the last child before the new key is between
      rcases List.eq_nil_or_concat pre with rfl | ⟨es, e, rfl⟩
      · obtain rfl := List.mem_singleton.mp hc
        exact absurd hca hleft
      · rw [List.concat_eq_append] at hpre hleft hc
        rw [lastChild_snoc] at hleft
        have hc' : c ∈ first :: es.map Prod.snd := by
          rw [List.map_append, ← List.cons_append] at hc
          refine (List.mem_append.mp hc).resolve_right fun hlast => hleft ?_
          obtain rfl : c = e.2 := by simpa using hlast
          exact hca
        have hbefore := h.before
        rw [List.concat_eq_append, List.append_assoc] at hbefore
        exact ((ha e.1 e.2).1 ⟨P, first, es, e.2, _, hbefore, ⟨c, hc', hca⟩, e.2,
          List.mem_cons_self, .refl⟩).trans (hpre e (by simp))
  · intro hs
    rcases h.separates_cases hs with hs | ⟨rfl, -, d, hd, hda⟩
    · exact (ha w b).2 hs
    · cases post with
      | nil =>
        obtain rfl := List.mem_singleton.mp hd
        exact absurd hda hright
      | cons e es =>
        have hd' : d ∈ e.2 :: es.map Prod.snd := (List.mem_cons.mp hd).resolve_left fun heq =>
          hright (heq ▸ hda)
        have hbefore := h.before
        refine (hpost e List.mem_cons_self).trans ((ha e.1 R).2
          ⟨P, first, pre ++ [(k, R)], e.2, es, ?_, ⟨R, ?_, .refl⟩, d, hd', hda⟩)
        · rw [hbefore, List.append_assoc]
          rfl
        · simp

/-- What belongs under one of the two children next to the key belongs under their node and between
the other keys. -/
theorem inRange_node (hv : T.InRange (lastChild first pre) v ∨ T.InRange R v) :
    T'.InRange P v ∧ (∀ e ∈ pre, e.1 ≤ v) ∧ ∀ e ∈ post, v ≤ e.1 := by
  have hsame : T.InRange P v → T'.InRange P v := by
    intro hP w b
    constructor
    · intro hs
      rcases h.separates_cases hs with hs | ⟨-, ⟨c, hc, hcP⟩, -⟩
      · exact (hP w b).1 hs
      · exact absurd hcP (h.balanced.not_under ⟨first, _, h.before, mem_children_left _ hc⟩)
    · intro hs
      rcases h.separates_cases hs with hs | ⟨-, -, d, hd, hdP⟩
      · exact (hP w b).2 hs
      · exact absurd hdP (h.balanced.not_under ⟨first, _, h.before, mem_children_right _ _ hd⟩)
  rcases hv with hv | hv
  · obtain ⟨hpre, hpost⟩ := hv.entries h.before
    exact ⟨hsame (hv.parent (child_lastChild h.before)), hpre,
      fun e he => hpost e (List.mem_cons_of_mem _ he)⟩
  · have hbefore : T.node P = some (first, (pre ++ [(k, R)]) ++ post) := by
      rw [h.before, List.append_assoc]
      rfl
    have hlast : lastChild first (pre ++ [(k, R)]) = R := lastChild_snoc first pre (k, R)
    rw [← hlast] at hv
    obtain ⟨hpre, hpost⟩ := hv.entries hbefore
    exact ⟨hsame (hv.parent (child_lastChild hbefore)),
      fun e he => hpre e (List.mem_append_left _ he), hpost⟩

theorem inRange_left (hv : T.InRange (lastChild first pre) v ∨ T.InRange R v) (hle : v ≤ k') :
    T'.InRange (lastChild first pre) v := by
  obtain ⟨hP, hpre, hpost⟩ := h.inRange_node hv
  apply hP.child h.balanced_after h.after hpre
  intro e he
  rcases List.mem_cons.mp he with rfl | he
  · exact hle
  · exact hpost e he

theorem inRange_right (hv : T.InRange (lastChild first pre) v ∨ T.InRange R v) (hle : k' ≤ v) :
    T'.InRange R v := by
  obtain ⟨hP, hpre, hpost⟩ := h.inRange_node hv
  have hafter : T'.node P = some (first, (pre ++ [(k', R)]) ++ post) := by
    rw [h.after, List.append_assoc]
    rfl
  rw [show R = lastChild first (pre ++ [(k', R)]) from (lastChild_snoc first pre (k', R)).symm]
  apply hP.child h.balanced_after hafter ?_ hpost
  intro e he
  rcases List.mem_append.mp he with he | he
  · exact hpre e he
  · obtain rfl := List.mem_singleton.mp he
    exact hle

end Order

end Rekeys

end PagedDb.KeyTree
