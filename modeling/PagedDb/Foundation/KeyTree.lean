import Mathlib

/-!
# Trees that are searched by keys

An inner node has a first child and further children, each behind a key. A key
separates what is under the children before it from what is under those behind
it; this says which keys belong in a leaf and in which order the leaves come.
A leaf that is split off keeps both.
-/

namespace PagedDb

/-- The inner nodes of a tree: the first child, and the keys with the child behind each. -/
structure KeyTree (ν κ : Type*) where
  node : ν → Option (ν × List (κ × ν))

namespace KeyTree

variable {ν κ : Type*} {T T' : KeyTree ν κ} {a b c m n P L R first : ν} {k v : κ}
  {pre post es es' : List (κ × ν)} {e : κ × ν}

def Child (T : KeyTree ν κ) (n c : ν) : Prop :=
  ∃ first entries, T.node n = some (first, entries) ∧ c ∈ first :: entries.map Prod.snd

/-- `b` is in the subtree of `a`. -/
def Under (T : KeyTree ν κ) : ν → ν → Prop := Relation.ReflTransGen T.Child

/-- Some node has the key `k`, with `a` under a child before it and `b` under one behind it. -/
def Separates (T : KeyTree ν κ) (k : κ) (a b : ν) : Prop :=
  ∃ n first pre m post, T.node n = some (first, pre ++ (k, m) :: post) ∧
    (∃ c ∈ first :: pre.map Prod.snd, T.Under c a) ∧ ∃ c ∈ m :: post.map Prod.snd, T.Under c b

def Before (T : KeyTree ν κ) (a b : ν) : Prop := ∃ k, T.Separates k a b

/-- Every node has its children once and is the child of at most one node, and all leaves are
equally far down. -/
structure Balanced (T : KeyTree ν κ) (rank : ν → ℕ) : Prop where
  nodup : ∀ n first entries, T.node n = some (first, entries) →
    (first :: entries.map Prod.snd).Nodup
  parent : ∀ m n c, T.Child m c → T.Child n c → m = n
  rank_child : ∀ n c, T.Child n c → rank n = rank c + 1
  rank_leaf : ∀ n, T.node n = none → rank n = 0

theorem Under.of_leaf (h : T.Under a b) (hleaf : T.node a = none) : b = a := by
  rcases Relation.ReflTransGen.cases_head h with rfl | ⟨c, ⟨_, _, hnode, -⟩, -⟩
  · rfl
  · rw [hleaf] at hnode
    cases hnode

namespace Balanced

variable {rank : ν → ℕ}

theorem rank_under (hT : T.Balanced rank) (h : T.Under a b) : rank b ≤ rank a := by
  induction h with
  | refl => exact le_rfl
  | tail _ hchild ih =>
    have := hT.rank_child _ _ hchild
    omega

theorem not_under (hT : T.Balanced rank) (hchild : T.Child n c) : ¬ T.Under c n := by
  intro h
  have := hT.rank_under h
  have := hT.rank_child n c hchild
  omega

theorem above (hT : T.Balanced rank) (hchild : T.Child n c) (h : T.Under a c) :
    a = c ∨ T.Under a n := by
  rcases Relation.ReflTransGen.cases_tail h with rfl | ⟨m, ham, hmc⟩
  · exact .inl rfl
  · exact .inr (hT.parent m n c hmc hchild ▸ ham)

end Balanced

theorem entry_cases (h : pre ++ post = es ++ e :: es') :
    (∃ l, pre = es ++ e :: l ∧ es' = l ++ post) ∨ ∃ l, es = pre ++ l ∧ post = l ++ e :: es' := by
  rcases List.append_eq_append_iff.mp h with ⟨l, hes, hpost⟩ | ⟨l, hpre, hl⟩
  · exact .inr ⟨l, hes, hpost⟩
  · cases l with
    | nil =>
      rw [List.append_nil] at hpre
      exact .inr ⟨[], by rw [hpre, List.append_nil], by rw [hl]; rfl⟩
    | cons e' l =>
      obtain ⟨rfl, rfl⟩ := List.cons.inj hl
      exact .inl ⟨l, hpre, rfl⟩

theorem mem_children_left (es' : List (κ × ν)) (hc : c ∈ first :: es.map Prod.snd) :
    c ∈ first :: (es ++ es').map Prod.snd := by
  rw [List.map_append, ← List.cons_append]
  exact List.mem_append_left _ hc

theorem mem_children_right (first : ν) (es : List (κ × ν)) (hc : c ∈ es'.map Prod.snd) :
    c ∈ first :: (es ++ es').map Prod.snd := by
  rw [List.map_append, ← List.cons_append]
  exact List.mem_append_right _ hc

theorem not_mem_both (hnodup : (first :: (es ++ es').map Prod.snd).Nodup)
    (hc : c ∈ first :: es.map Prod.snd) : c ∉ es'.map Prod.snd := by
  rw [List.map_append, ← List.cons_append] at hnodup
  exact fun hc' => (List.nodup_append.mp hnodup).2.2 c hc c hc' rfl

/-- The child in front of the entries `post`. -/
def lastChild (first : ν) (pre : List (κ × ν)) : ν :=
  ((first :: pre.map Prod.snd).getLast (List.cons_ne_nil _ _))

theorem lastChild_mem (first : ν) (pre : List (κ × ν)) :
    lastChild first pre ∈ first :: pre.map Prod.snd := List.getLast_mem _

theorem lastChild_snoc (first : ν) (pre : List (κ × ν)) (e : κ × ν) :
    lastChild first (pre ++ [e]) = e.2 := by
  simp [lastChild]

theorem getElem?_lastChild (first : ν) (pre post : List (κ × ν)) :
    (first :: (pre ++ post).map Prod.snd)[pre.length]? = some (lastChild first pre) := by
  induction pre generalizing first with
  | nil => rfl
  | cons e pre ih =>
    have hlast : lastChild first (e :: pre) = lastChild e.2 pre := by simp [lastChild]
    rw [hlast]
    exact ih e.2

theorem exists_lastChild {entries : List (κ × ν)} (hc : c ∈ first :: entries.map Prod.snd) :
    ∃ pre post, entries = pre ++ post ∧ lastChild first pre = c := by
  obtain ⟨i, hi⟩ := List.mem_iff_getElem?.mp hc
  have hlt := (List.getElem?_eq_some_iff.mp hi).1
  rw [List.length_cons, List.length_map] at hlt
  have hlen : (entries.take i).length = i := by
    rw [List.length_take]
    omega
  refine ⟨entries.take i, entries.drop i, (List.take_append_drop i entries).symm, ?_⟩
  have hget := getElem?_lastChild first (entries.take i) (entries.drop i)
  rw [List.take_append_drop, hlen, hi] at hget
  exact (Option.some.inj hget).symm

/-- Behind an entry of `pre`, the last child is among the children behind it. -/
theorem lastChild_behind (first : ν) (es l : List (κ × ν)) (e : κ × ν) :
    lastChild first (es ++ e :: l) ∈ e.2 :: l.map Prod.snd := by
  have : lastChild first (es ++ e :: l) = lastChild e.2 l := by
    simp [lastChild]
  rw [this]
  exact lastChild_mem e.2 l

theorem child_lastChild (hnode : T.node n = some (first, pre ++ post)) :
    T.Child n (lastChild first pre) := by
  exact ⟨first, pre ++ post, hnode, mem_children_left post (lastChild_mem first pre)⟩

/-- What is separated from a child by a key behind it is so from its node, or the key is one of
the node's own behind the child. -/
theorem Separates.of_left {rank : ν → ℕ} (h : T.Separates k (lastChild first pre) b)
    (hT : T.Balanced rank) (hnode : T.node n = some (first, pre ++ post)) :
    T.Separates k n b ∨ ∃ e ∈ post, e.1 = k := by
  have hchild := child_lastChild hnode
  have hnodup := hT.nodup n first _ hnode
  generalize hc : lastChild first pre = c at h hchild
  obtain ⟨m, f, es, r, es', hm, ⟨x, hx, hxc⟩, hb⟩ := h
  rcases hT.above hchild hxc with rfl | hxn
  · obtain rfl := hT.parent m n x ⟨f, _, hm, mem_children_left _ hx⟩ hchild
    obtain ⟨rfl, heq⟩ := Prod.mk.inj (Option.some.inj (hnode.symm.trans hm))
    rcases entry_cases heq with ⟨l, rfl, rfl⟩ | ⟨l, rfl, rfl⟩
    · -- the child would be on both sides of an entry
      have hbehind := hc ▸ lastChild_behind first es l (k, r)
      rw [List.append_assoc] at hnodup
      have hr : x ∈ r :: (l ++ post).map Prod.snd := mem_children_left post hbehind
      exact absurd hr (not_mem_both hnodup hx)
    · exact .inr ⟨(k, r), List.mem_append_right _ List.mem_cons_self, rfl⟩
  · exact .inl ⟨m, f, es, r, es', hm, ⟨x, hx, hxn⟩, hb⟩

theorem Separates.of_right {rank : ν → ℕ} (h : T.Separates k b (lastChild first pre))
    (hT : T.Balanced rank) (hnode : T.node n = some (first, pre ++ post)) :
    T.Separates k b n ∨ ∃ e ∈ pre, e.1 = k := by
  have hchild := child_lastChild hnode
  have hnodup := hT.nodup n first _ hnode
  have hlast := lastChild_mem first pre
  generalize hc : lastChild first pre = c at h hchild hlast
  obtain ⟨m, f, es, r, es', hm, hb, ⟨x, hx, hxc⟩⟩ := h
  rcases hT.above hchild hxc with rfl | hxn
  · obtain rfl := hT.parent m n x ⟨f, _, hm, mem_children_right f es hx⟩ hchild
    obtain ⟨rfl, heq⟩ := Prod.mk.inj (Option.some.inj (hnode.symm.trans hm))
    rcases entry_cases heq with ⟨l, rfl, rfl⟩ | ⟨l, rfl, rfl⟩
    · exact .inr ⟨(k, r), List.mem_append_right _ List.mem_cons_self, rfl⟩
    · rw [← List.append_assoc] at hnodup
      exact absurd hx (not_mem_both hnodup (mem_children_left l hlast))
  · exact .inl ⟨m, f, es, r, es', hm, hb, ⟨x, hx, hxn⟩⟩

theorem not_separates_top (htop : ∀ m, ¬ T.Child m n) :
    ¬ T.Separates k n b ∧ ¬ T.Separates k b n := by
  have habove : ∀ x, T.Under x n → x = n := by
    intro x hx
    rcases Relation.ReflTransGen.cases_tail hx with rfl | ⟨m, -, hm⟩
    · rfl
    · exact absurd hm (htop m)
  constructor
  · rintro ⟨m, f, es, r, es', hm, ⟨x, hx, hxn⟩, -⟩
    exact htop m (habove x hxn ▸ ⟨f, _, hm, mem_children_left _ hx⟩)
  · rintro ⟨m, f, es, r, es', hm, -, ⟨x, hx, hxn⟩⟩
    exact htop m (habove x hxn ▸ ⟨f, _, hm, mem_children_right f es hx⟩)

section Order

variable [LinearOrder κ]

def InRange (T : KeyTree ν κ) (a : ν) (v : κ) : Prop :=
  ∀ k b, (T.Separates k a b → v ≤ k) ∧ (T.Separates k b a → k ≤ v)

def Leftmost (T : KeyTree ν κ) (a : ν) (v : κ) : Prop :=
  ∀ k b, (T.Separates k a b → v ≤ k) ∧ (T.Separates k b a → k < v)

theorem Before.le {w : κ} (h : T.Before a b) (ha : T.InRange a v) (hb : T.InRange b w) :
    v ≤ w := by
  obtain ⟨k, hk⟩ := h
  exact ((ha k b).1 hk).trans ((hb k a).2 hk)

theorem Leftmost.inRange (h : T.Leftmost a v) : T.InRange a v :=
  fun k b => ⟨(h k b).1, fun hs => ((h k b).2 hs).le⟩

theorem InRange.entries (h : T.InRange (lastChild first pre) v)
    (hnode : T.node n = some (first, pre ++ post)) :
    (∀ e ∈ pre, e.1 ≤ v) ∧ ∀ e ∈ post, v ≤ e.1 := by
  constructor
  · intro e he
    obtain ⟨es, l, rfl⟩ := List.append_of_mem he
    rw [List.append_assoc] at hnode
    have hlast := mem_children_left post (lastChild_behind first es l e)
    exact (h e.1 first).2 ⟨n, first, es, e.2, l ++ post, hnode, ⟨first, List.mem_cons_self, .refl⟩,
      ⟨_, hlast, .refl⟩⟩
  · intro e he
    obtain ⟨es, l, rfl⟩ := List.append_of_mem he
    rw [← List.append_assoc] at hnode
    have hlast := mem_children_left es (lastChild_mem first pre)
    exact (h e.1 e.2).1 ⟨n, first, pre ++ es, e.2, l, hnode, ⟨_, hlast, .refl⟩,
      ⟨e.2, List.mem_cons_self, .refl⟩⟩

/-- A child that the keys around it leave for `v` is the first one to search. -/
theorem Leftmost.child {rank : ν → ℕ} (h : T.Leftmost n v) (hT : T.Balanced rank)
    (hnode : T.node n = some (first, pre ++ post)) (hpre : ∀ e ∈ pre, e.1 < v)
    (hpost : ∀ e ∈ post, v ≤ e.1) : T.Leftmost (lastChild first pre) v := by
  intro k b
  constructor
  · intro hs
    rcases hs.of_left hT hnode with hs | ⟨e, he, rfl⟩
    · exact (h k b).1 hs
    · exact hpost e he
  · intro hs
    rcases hs.of_right hT hnode with hs | ⟨e, he, rfl⟩
    · exact (h k b).2 hs
    · exact hpre e he

end Order

section Old

variable [DecidableEq ν]

def old (L R a : ν) : ν := if a = R then L else a

theorem old_left : old L R L = L := by
  unfold old
  split
  · rfl
  · rfl

theorem old_right : old L R R = L := if_pos rfl

theorem old_of_ne (ha : a ≠ R) : old L R a = a := if_neg ha

end Old

/-- `T'` is `T` with the leaf `R` split off from the leaf `L`, a child of `P`. -/
structure Splits (T T' : KeyTree ν κ) (rank : ν → ℕ) (P L R first : ν) (k : κ)
    (pre post : List (κ × ν)) : Prop where
  balanced : T.Balanced rank
  before : T.node P = some (first, pre ++ post)
  after : T'.node P = some (first, pre ++ (k, R) :: post)
  others : ∀ n, n ≠ P → T'.node n = T.node n
  left : lastChild first pre = L
  left_leaf : T.node L = none
  right_leaf : T.node R = none
  fresh : ∀ n, ¬ T.Child n R

namespace Splits

variable {rank : ν → ℕ} (h : T.Splits T' rank P L R first k pre post)

include h

theorem right_ne : R ≠ P := by
  rintro rfl
  exact absurd (h.right_leaf.symm.trans h.before) (by simp)

theorem child_left : T.Child P L := h.left ▸ child_lastChild h.before

theorem left_ne_right : L ≠ R := fun heq => h.fresh P (heq ▸ h.child_left)

theorem child_iff : T'.Child n c ↔ T.Child n c ∨ (n = P ∧ c = R) := by
  by_cases hn : n = P
  · subst hn
    simp only [Child, h.before, h.after, Option.some.injEq, Prod.mk.injEq, true_and]
    constructor
    · rintro ⟨_, _, ⟨rfl, rfl⟩, hc⟩
      simp only [List.map_append, List.map_cons, List.mem_cons, List.mem_append] at hc
      rcases hc with hc | hc | hc | hc
      · exact .inl ⟨_, _, ⟨rfl, rfl⟩, by simp [hc]⟩
      · exact .inl ⟨_, _, ⟨rfl, rfl⟩, by
          rw [List.map_append]
          exact List.mem_cons_of_mem _ (List.mem_append_left _ hc)⟩
      · exact .inr hc
      · exact .inl ⟨_, _, ⟨rfl, rfl⟩, by
          rw [List.map_append]
          exact List.mem_cons_of_mem _ (List.mem_append_right _ hc)⟩
    · rintro (⟨_, _, ⟨rfl, rfl⟩, hc⟩ | rfl)
      · refine ⟨_, _, ⟨rfl, rfl⟩, ?_⟩
        simp only [List.map_append, List.map_cons, List.mem_cons, List.mem_append] at hc ⊢
        tauto
      · exact ⟨_, _, ⟨rfl, rfl⟩, by simp⟩
  · simp [Child, h.others n hn, hn]

theorem under_mono (hab : T.Under a b) : T'.Under a b :=
  Relation.ReflTransGen.mono (fun _ _ hc => h.child_iff.mpr (.inl hc)) _ _ hab

/-- What is under an old node was under it, or is the new leaf under an old node above `P`. -/
theorem of_under (hab : T'.Under a b) (ha : a ≠ R) :
    (b ≠ R → T.Under a b) ∧ (b = R → T.Under a P) := by
  induction hab with
  | refl => exact ⟨fun _ => .refl, fun hb => absurd hb ha⟩
  | @tail x y _ hxy ih =>
    rcases h.child_iff.mp hxy with hxy | ⟨rfl, rfl⟩
    · have hx : x ≠ R := by
        rintro rfl
        obtain ⟨_, _, hnode, -⟩ := hxy
        exact absurd (h.right_leaf.symm.trans hnode) (by simp)
      exact ⟨fun _ => (ih.1 hx).tail hxy, fun hy => absurd (hy ▸ hxy) (h.fresh x)⟩
    · exact ⟨fun hy => absurd rfl hy, fun _ => ih.1 h.right_ne.symm⟩

theorem under_right (hb : T'.Under R b) : b = R :=
  hb.of_leaf ((h.others R h.right_ne).trans h.right_leaf)

theorem balanced_after : T'.Balanced rank where
  nodup n f entries hnode := by
    by_cases hn : n = P
    · subst hn
      obtain ⟨rfl, rfl⟩ := Prod.mk.inj (Option.some.inj (h.after.symm.trans hnode))
      have hnodup := h.balanced.nodup n _ _ h.before
      have hnot : R ∉ first :: (pre ++ post).map Prod.snd :=
        fun hR => h.fresh n ⟨first, _, h.before, hR⟩
      rw [List.map_append, List.map_cons, ← List.cons_append, List.nodup_middle]
      rw [List.map_append, ← List.cons_append] at hnodup hnot
      exact List.nodup_cons.mpr ⟨hnot, hnodup⟩
    · exact h.balanced.nodup n f entries (h.others n hn ▸ hnode)
  parent m n c hm hn := by
    rcases h.child_iff.mp hm with hm | ⟨rfl, rfl⟩
    · rcases h.child_iff.mp hn with hn | ⟨rfl, rfl⟩
      · exact h.balanced.parent m n c hm hn
      · exact absurd hm (h.fresh m)
    · rcases h.child_iff.mp hn with hn | ⟨rfl, -⟩
      · exact absurd hn (h.fresh n)
      · rfl
  rank_child n c hc := by
    rcases h.child_iff.mp hc with hc | ⟨rfl, rfl⟩
    · exact h.balanced.rank_child n c hc
    · rw [h.balanced.rank_child n L h.child_left, h.balanced.rank_leaf L h.left_leaf,
        h.balanced.rank_leaf c h.right_leaf]
  rank_leaf n hn := by
    apply h.balanced.rank_leaf
    by_cases heq : n = P
    · rw [heq, h.after] at hn
      cases hn
    · rwa [← h.others n heq]

/-- Under the children before the new entry there is the old leaf, or what is before it. -/
theorem before_left (ha : ∃ c ∈ first :: pre.map Prod.snd, T.Under c a) :
    a = L ∨ T.Before a L := by
  obtain ⟨c, hc, hca⟩ := ha
  rcases List.eq_nil_or_concat pre with rfl | ⟨pre', e, rfl⟩
  · obtain rfl : c = L := by
      rw [← h.left]
      simpa [lastChild] using hc
    exact .inl (hca.of_leaf h.left_leaf)
  · rw [List.concat_eq_append] at *
    have hL : L = e.2 := by rw [← h.left, lastChild_snoc]
    simp only [List.map_append, List.map_cons, List.map_nil, ← List.cons_append] at hc
    rcases List.mem_append.mp hc with hc | hc
    · right
      have hbefore := h.before
      rw [List.append_assoc] at hbefore
      exact ⟨e.1, P, first, pre', e.2, post, hbefore, ⟨c, hc, hca⟩,
        ⟨e.2, List.mem_cons_self, hL ▸ .refl⟩⟩
    · rw [List.mem_singleton] at hc
      subst hc
      exact .inl (hca.of_leaf (hL ▸ h.left_leaf) |>.trans hL.symm)

theorem after_left (hb : ∃ c ∈ post.map Prod.snd, T.Under c b) : T.Before L b := by
  obtain ⟨c, hc, hcb⟩ := hb
  cases post with
  | nil => simp at hc
  | cons e post =>
    exact ⟨e.1, P, first, pre, e.2, post, h.before,
      ⟨L, h.left ▸ lastChild_mem first pre, .refl⟩, ⟨c, hc, hcb⟩⟩

theorem before_right : T'.Before L R :=
  ⟨k, P, first, pre, R, post, h.after, ⟨L, h.left ▸ lastChild_mem first pre, .refl⟩,
    ⟨R, List.mem_cons_self, .refl⟩⟩

theorem before_mono (hab : T.Before a b) : T'.Before a b := by
  obtain ⟨v, n, f, es, m, es', hnode, ⟨x, hx, hxa⟩, ⟨y, hy, hyb⟩⟩ := hab
  by_cases hn : n = P
  · subst hn
    obtain ⟨rfl, heq⟩ := Prod.mk.inj (Option.some.inj (h.before.symm.trans hnode))
    have hafter := h.after
    rcases entry_cases heq with ⟨l, rfl, rfl⟩ | ⟨l, rfl, rfl⟩
    · rw [List.append_assoc] at hafter
      refine ⟨v, n, first, es, m, l ++ (k, R) :: post, hafter, ⟨x, hx, h.under_mono hxa⟩,
        ⟨y, ?_, h.under_mono hyb⟩⟩
      simp only [List.map_append, List.map_cons, List.mem_cons, List.mem_append] at hy ⊢
      tauto
    · rw [← List.cons_append, ← List.append_assoc] at hafter
      refine ⟨v, n, first, pre ++ (k, R) :: l, m, es', hafter, ⟨x, ?_, h.under_mono hxa⟩,
        ⟨y, hy, h.under_mono hyb⟩⟩
      simp only [List.map_append, List.map_cons, List.mem_cons, List.mem_append] at hx ⊢
      tauto
  · rw [← h.others n hn] at hnode
    exact ⟨v, n, f, es, m, es', hnode, ⟨x, hx, h.under_mono hxa⟩, ⟨y, hy, h.under_mono hyb⟩⟩

theorem before_new (hab : T.Before a L) : T'.Before a R := by
  obtain ⟨v, n, f, es, m, es', hnode, ⟨x, hx, hxa⟩, ⟨y, hy, hyL⟩⟩ := hab
  have hy' : T.Child n y := ⟨f, _, hnode, mem_children_right f es hy⟩
  by_cases hn : n = P
  · subst hn
    obtain ⟨rfl, heq⟩ := Prod.mk.inj (Option.some.inj (h.before.symm.trans hnode))
    rcases h.balanced.above h.child_left hyL with rfl | hyn
    · rcases entry_cases heq with ⟨l, rfl, rfl⟩ | ⟨l, rfl, rfl⟩
      · have hafter := h.after
        rw [List.append_assoc] at hafter
        exact ⟨v, n, first, es, m, l ++ (k, R) :: post, hafter, ⟨x, hx, h.under_mono hxa⟩,
          ⟨R, by simp, .refl⟩⟩
      · -- the old leaf would be on both sides of the entry
        have hnodup := h.balanced.nodup n _ _ h.before
        rw [← List.append_assoc] at hnodup
        have hleft := mem_children_left l (h.left ▸ lastChild_mem first pre)
        exact absurd hy (not_mem_both hnodup hleft)
    · exact absurd hyn (h.balanced.not_under hy')
  · have hyP : T.Under y P := by
      rcases h.balanced.above h.child_left hyL with rfl | hyP
      · exact absurd (h.balanced.parent n P y hy' h.child_left) hn
      · exact hyP
    rw [← h.others n hn] at hnode
    exact ⟨v, n, f, es, m, es', hnode, ⟨x, hx, h.under_mono hxa⟩,
      ⟨y, hy, (h.under_mono hyP).tail (h.child_iff.mpr (.inr ⟨rfl, rfl⟩))⟩⟩

theorem new_before (hab : T.Before L b) : T'.Before R b := by
  obtain ⟨v, n, f, es, m, es', hnode, ⟨x, hx, hxL⟩, ⟨y, hy, hyb⟩⟩ := hab
  have hx' : T.Child n x := ⟨f, _, hnode, mem_children_left _ hx⟩
  by_cases hn : n = P
  · subst hn
    obtain ⟨rfl, heq⟩ := Prod.mk.inj (Option.some.inj (h.before.symm.trans hnode))
    rcases h.balanced.above h.child_left hxL with rfl | hxn
    · rcases entry_cases heq with ⟨l, rfl, rfl⟩ | ⟨l, rfl, rfl⟩
      · -- the old leaf would be on both sides of the entry
        have hnodup := h.balanced.nodup n _ _ h.before
        rw [List.append_assoc] at hnodup
        have hright := h.left ▸ lastChild_behind first es l (v, m)
        have hm : x ∈ m :: (l ++ post).map Prod.snd := mem_children_left post hright
        exact absurd hm (not_mem_both hnodup hx)
      · have hafter := h.after
        rw [← List.cons_append, ← List.append_assoc] at hafter
        exact ⟨v, n, first, pre ++ (k, R) :: l, m, es', hafter, ⟨R, by simp, .refl⟩,
          ⟨y, hy, h.under_mono hyb⟩⟩
    · exact absurd hxn (h.balanced.not_under hx')
  · have hxP : T.Under x P := by
      rcases h.balanced.above h.child_left hxL with rfl | hxP
      · exact absurd (h.balanced.parent n P x hx' h.child_left) hn
      · exact hxP
    rw [← h.others n hn] at hnode
    exact ⟨v, n, f, es, m, es', hnode,
      ⟨x, hx, (h.under_mono hxP).tail (h.child_iff.mpr (.inr ⟨rfl, rfl⟩))⟩,
      ⟨y, hy, h.under_mono hyb⟩⟩

section Order

variable [DecidableEq ν]

theorem under_old (hab : T'.Under a b) (ha : a ≠ R) : T.Under a (old L R b) := by
  unfold old
  split
  · rename_i hb
    exact ((h.of_under hab ha).2 hb).tail h.child_left
  · rename_i hb
    exact (h.of_under hab ha).1 hb

/-- Where a key separates two nodes after the split: as before, or it is the new key. -/
theorem separates_cases (hs : T'.Separates v a b) :
    T.Separates v (old L R a) (old L R b) ∨
      (v = k ∧ a ≠ R ∧ (∃ c ∈ first :: pre.map Prod.snd, T.Under c a) ∧
        (b = R ∨ ∃ c ∈ post.map Prod.snd, T.Under c b)) := by
  obtain ⟨n, f, es, m, es', hnode, ⟨x, hx, hxa⟩, ⟨y, hy, hyb⟩⟩ := hs
  have hne : ∀ {n f es z}, T.node n = some (f, es) → z ∈ f :: es.map Prod.snd → z ≠ R :=
    fun hnode hz heq => h.fresh _ ⟨_, _, hnode, heq ▸ hz⟩
  by_cases hn : n = P
  · subst hn
    have hchild : ∀ {z}, z ∈ first :: (pre ++ post).map Prod.snd → T.Child n z :=
      fun hz => ⟨first, _, h.before, hz⟩
    obtain ⟨rfl, heq⟩ := Prod.mk.inj (Option.some.inj (h.after.symm.trans hnode))
    rcases entry_cases heq with ⟨l, rfl, rfl⟩ | ⟨l, rfl, hl⟩
    · -- an entry before the new one; the new leaf is behind it, as the old one was
      left
      have hbefore := h.before
      rw [List.append_assoc] at hbefore
      refine ⟨n, first, es, m, l ++ post, hbefore,
        ⟨x, hx, h.under_old hxa (hne hbefore (mem_children_left _ hx))⟩, ?_⟩
      by_cases hyR : y = R
      · subst hyR
        refine ⟨L, ?_, ?_⟩
        · rw [← h.left]
          exact mem_children_left post (lastChild_behind first es l (v, m))
        · rw [h.under_right hyb, old, if_pos rfl]
          exact .refl
      · refine ⟨y, ?_, h.under_old hyb hyR⟩
        simp only [List.map_append, List.map_cons, List.mem_cons, List.mem_append] at hy ⊢
        tauto
    · cases l with
      | nil =>
        -- the new entry
        right
        obtain ⟨hentry, rfl⟩ := List.cons.inj hl
        obtain ⟨rfl, rfl⟩ := Prod.mk.inj hentry
        rw [List.append_nil] at hx
        have hxR : x ≠ R := hne h.before (mem_children_left _ hx)
        have haR : a ≠ R := fun ha =>
          h.balanced.not_under (hchild (mem_children_left _ hx)) ((h.of_under hxa hxR).2 ha)
        refine ⟨rfl, haR, ⟨x, hx, (h.of_under hxa hxR).1 haR⟩, ?_⟩
        rcases List.mem_cons.mp hy with rfl | hy
        · exact .inl (h.under_right hyb)
        · have hyR : y ≠ R := hne h.before (mem_children_right first pre hy)
          by_cases hbR : b = R
          · exact .inl hbR
          · exact .inr ⟨y, hy, (h.of_under hyb hyR).1 hbR⟩
      | cons e l =>
        -- an entry behind the new one; the new leaf is before it, as the old one was
        left
        rw [List.cons_append, List.cons.injEq] at hl
        obtain ⟨rfl, rfl⟩ := hl
        have hbefore := h.before
        rw [← List.append_assoc] at hbefore
        have hyR : y ≠ R := hne hbefore (mem_children_right first _ hy)
        refine ⟨n, first, pre ++ l, m, es', hbefore, ?_, ⟨y, hy, h.under_old hyb hyR⟩⟩
        by_cases hxR : x = R
        · subst hxR
          refine ⟨L, mem_children_left l (h.left ▸ lastChild_mem first pre), ?_⟩
          rw [h.under_right hxa, old, if_pos rfl]
          exact .refl
        · refine ⟨x, ?_, h.under_old hxa hxR⟩
          simp only [List.map_append, List.map_cons, List.mem_cons, List.mem_append] at hx ⊢
          tauto
  · have hnode' := h.others n hn ▸ hnode
    exact .inl ⟨n, f, es, m, es', hnode',
      ⟨x, hx, h.under_old hxa (hne hnode' (mem_children_left _ hx))⟩,
      ⟨y, hy, h.under_old hyb (hne hnode' (mem_children_right f es hy))⟩⟩

variable [LinearOrder κ]

theorem inRange_other (hk : T.InRange L k) (ha : T.InRange a v) (haL : a ≠ L) (haR : a ≠ R) :
    T'.InRange a v := by
  intro w b
  constructor
  · intro hs
    rcases h.separates_cases hs with hs | ⟨rfl, -, hleft, -⟩
    · rw [old_of_ne haR] at hs
      exact (ha w _).1 hs
    · exact ((h.before_left hleft).resolve_left haL).le ha hk
  · intro hs
    rcases h.separates_cases hs with hs | ⟨rfl, -, -, hright⟩
    · rw [old_of_ne haR] at hs
      exact (ha w _).2 hs
    · exact (h.after_left (hright.resolve_left haR)).le hk ha

theorem inRange_left (hk : T.InRange L k) (hv : T.InRange L v) (hle : v ≤ k) :
    T'.InRange L v := by
  intro w b
  constructor
  · intro hs
    rcases h.separates_cases hs with hs | ⟨rfl, -, -, -⟩
    · rw [old_left] at hs
      exact (hv w _).1 hs
    · exact hle
  · intro hs
    rcases h.separates_cases hs with hs | ⟨rfl, -, -, hright⟩
    · rw [old_left] at hs
      exact (hv w _).2 hs
    · exact (h.after_left (hright.resolve_left h.left_ne_right)).le hk hv

theorem inRange_right (hk : T.InRange L k) (hv : T.InRange L v) (hle : k ≤ v) :
    T'.InRange R v := by
  intro w b
  constructor
  · intro hs
    rcases h.separates_cases hs with hs | ⟨-, hne, -⟩
    · rw [old_right] at hs
      exact (hv w _).1 hs
    · exact absurd rfl hne
  · intro hs
    rcases h.separates_cases hs with hs | ⟨rfl, -, -, -⟩
    · rw [old_right] at hs
      exact (hv w _).2 hs
    · exact hle

end Order

end Splits

/-- `T'` is `T` with the new node `Q` above its root `L`. -/
structure Raises (T T' : KeyTree ν κ) (rank : ν → ℕ) (Q L : ν) : Prop where
  balanced : T.Balanced rank
  node : T'.node Q = some (L, [])
  others : ∀ n, n ≠ Q → T'.node n = T.node n
  new_leaf : T.node Q = none
  fresh : ∀ n, ¬ T.Child n Q
  top : ∀ n, ¬ T.Child n L
  ne : L ≠ Q

namespace Raises

variable {rank : ν → ℕ} {Q : ν} (h : T.Raises T' rank Q L)

include h

theorem child_iff : T'.Child n c ↔ T.Child n c ∨ (n = Q ∧ c = L) := by
  by_cases hn : n = Q
  · subst hn
    simp [Child, h.node, h.new_leaf]
  · simp [Child, h.others n hn, hn]

theorem under_iff (ha : a ≠ Q) : T'.Under a b ↔ T.Under a b := by
  constructor
  · intro hab
    induction hab using Relation.ReflTransGen.head_induction_on with
    | refl => exact .refl
    | head hchild _ ih =>
      rcases h.child_iff.mp hchild with hchild | ⟨rfl, -⟩
      · exact .head hchild (ih fun hc => h.fresh _ (hc ▸ hchild))
      · exact absurd rfl ha
  · exact fun hab => Relation.ReflTransGen.mono (fun _ _ hc => h.child_iff.mpr (.inl hc)) _ _ hab

theorem separates_iff : T'.Separates k a b ↔ T.Separates k a b := by
  have hchild : ∀ {n f es c}, T.node n = some (f, es) → c ∈ f :: es.map Prod.snd → c ≠ Q :=
    fun hnode hc heq => h.fresh _ ⟨_, _, hnode, heq ▸ hc⟩
  constructor
  · rintro ⟨n, f, es, m, es', hnode, ⟨x, hx, hxa⟩, ⟨y, hy, hyb⟩⟩
    have hn : n ≠ Q := by
      rintro rfl
      rw [h.node] at hnode
      simp at hnode
    rw [h.others n hn] at hnode
    exact ⟨n, f, es, m, es', hnode,
      ⟨x, hx, (h.under_iff (hchild hnode (mem_children_left _ hx))).mp hxa⟩,
      ⟨y, hy, (h.under_iff (hchild hnode (mem_children_right f es hy))).mp hyb⟩⟩
  · rintro ⟨n, f, es, m, es', hnode, ⟨x, hx, hxa⟩, ⟨y, hy, hyb⟩⟩
    have hn : n ≠ Q := by
      rintro rfl
      exact absurd (h.new_leaf.symm.trans hnode) (by simp)
    refine ⟨n, f, es, m, es', (h.others n hn).trans hnode,
      ⟨x, hx, (h.under_iff (hchild hnode (mem_children_left _ hx))).mpr hxa⟩,
      ⟨y, hy, (h.under_iff (hchild hnode (mem_children_right f es hy))).mpr hyb⟩⟩

theorem before_iff : T'.Before a b ↔ T.Before a b :=
  exists_congr fun _ => h.separates_iff

theorem inRange_iff [LinearOrder κ] : T'.InRange a v ↔ T.InRange a v := by
  simp only [InRange, h.separates_iff]

theorem balanced_after [DecidableEq ν] :
    T'.Balanced (Function.update rank Q (rank L + 1)) where
  nodup n f entries hnode := by
    by_cases hn : n = Q
    · subst hn
      obtain ⟨rfl, rfl⟩ := Prod.mk.inj (Option.some.inj (h.node.symm.trans hnode))
      simp
    · exact h.balanced.nodup n f entries (h.others n hn ▸ hnode)
  parent m n c hm hn := by
    rcases h.child_iff.mp hm with hm | ⟨rfl, rfl⟩
    · rcases h.child_iff.mp hn with hn | ⟨rfl, rfl⟩
      · exact h.balanced.parent m n c hm hn
      · exact absurd hm (h.top m)
    · rcases h.child_iff.mp hn with hn | ⟨rfl, -⟩
      · exact absurd hn (h.top n)
      · rfl
  rank_child n c hc := by
    rcases h.child_iff.mp hc with hc | ⟨rfl, rfl⟩
    · have hcQ : c ≠ Q := fun heq => h.fresh n (heq ▸ hc)
      have hnQ : n ≠ Q := by
        rintro rfl
        obtain ⟨_, _, hnode, -⟩ := hc
        exact absurd (h.new_leaf.symm.trans hnode) (by simp)
      rw [Function.update_of_ne hnQ, Function.update_of_ne hcQ, h.balanced.rank_child n c hc]
    · rw [Function.update_self, Function.update_of_ne h.ne]
  rank_leaf n hn := by
    have hnQ : n ≠ Q := by
      rintro rfl
      rw [h.node] at hn
      cases hn
    rw [Function.update_of_ne hnQ]
    exact h.balanced.rank_leaf n (h.others n hnQ ▸ hn)

end Raises

section Frontier

/-- The nodes `d` levels below a node, and the leaves above those, from left to right. -/
def frontier (T : KeyTree ν κ) : ℕ → ν → List ν
  | 0, n => [n]
  | d + 1, n =>
    match T.node n with
    | none => [n]
    | some (first, entries) => (first :: entries.map Prod.snd).flatMap (T.frontier d)

theorem under_of_mem_frontier {d : ℕ} (h : a ∈ T.frontier d n) : T.Under n a := by
  induction d generalizing n with
  | zero =>
    rw [List.mem_singleton.mp h]
    exact .refl
  | succ d ih =>
    rw [frontier] at h
    split at h
    · rw [List.mem_singleton.mp h]
      exact .refl
    · rename_i first entries hnode
      obtain ⟨c, hc, ha⟩ := List.mem_flatMap.mp h
      exact .head ⟨first, entries, hnode, hc⟩ (ih ha)

theorem before_of_children (hnode : T.node n = some (first, pre ++ post)) :
    (lastChild first pre :: post.map Prod.snd).Pairwise fun c d =>
      ∀ a, T.Under c a → ∀ b, T.Under d b → T.Before a b := by
  induction post generalizing pre with
  | nil => exact List.pairwise_singleton _ _
  | cons e post ih =>
    have hrest := @ih (pre ++ [e]) (by simpa using hnode)
    rw [lastChild_snoc] at hrest
    refine List.Pairwise.cons ?_ hrest
    intro d hd a ha b hb
    exact ⟨e.1, n, first, pre, e.2, post, hnode, ⟨_, lastChild_mem first pre, ha⟩, d, hd, hb⟩

theorem frontier_ordered (d : ℕ) (n : ν) : (T.frontier d n).Pairwise T.Before := by
  induction d generalizing n with
  | zero => exact List.pairwise_singleton _ _
  | succ d ih =>
    rw [frontier]
    split
    · exact List.pairwise_singleton _ _
    · rename_i first entries hnode
      have hchildren := before_of_children (show T.node n = some (first, [] ++ entries) from hnode)
      rw [List.pairwise_flatMap]
      refine ⟨fun c _ => ih c, hchildren.imp fun hcd a ha b hb => ?_⟩
      exact hcd a (under_of_mem_frontier ha) b (under_of_mem_frontier hb)

end Frontier

section Table

variable [BEq ν] [LawfulBEq ν] {table : List (ν × ν × List (κ × ν))}

def ofTable (table : List (ν × ν × List (κ × ν))) : KeyTree ν κ := ⟨fun n => table.lookup n⟩

def links (table : List (ν × ν × List (κ × ν))) : List (ν × ν) :=
  table.flatMap fun x => (x.2.1 :: x.2.2.map Prod.snd).map fun c => (x.1, c)

theorem mem_table (h : (ofTable table).node n = some (first, es)) : (n, first, es) ∈ table := by
  obtain ⟨l, r, rfl, -⟩ := List.lookup_eq_some_iff.mp h
  exact List.mem_append_right l List.mem_cons_self

theorem mem_links (h : (ofTable table).Child n c) : (n, c) ∈ links table := by
  obtain ⟨first, entries, hnode, hc⟩ := h
  exact List.mem_flatMap.mpr ⟨_, mem_table hnode, List.mem_map.mpr ⟨c, hc, rfl⟩⟩

theorem mem_linked (h : (ofTable table).Child n c) : c ∈ (links table).map Prod.snd :=
  List.mem_map_of_mem (mem_links h)

theorem balanced_ofTable {rank : ν → ℕ} (hnodup : ((links table).map Prod.snd).Nodup)
    (hrank : (links table).map (fun x => rank x.1) = (links table).map fun x => rank x.2 + 1)
    (hleaf : ∀ n, n ∉ table.map Prod.fst → rank n = 0) : (ofTable table).Balanced rank where
  nodup n first entries hnode := by
    have hmem := mem_table hnode
    have hnodup' : (table.flatMap fun x => x.2.1 :: x.2.2.map Prod.snd).Nodup := by
      simpa [links, List.map_flatMap, Function.comp_def] using hnodup
    exact (List.nodup_flatMap.mp hnodup').1 _ hmem
  parent m n c hm hn :=
    congrArg Prod.fst (List.inj_on_of_nodup_map hnodup (mem_links hm) (mem_links hn) rfl)
  rank_child n c hc := List.map_inj_left.mp hrank _ (mem_links hc)
  rank_leaf n hnode := by
    apply hleaf
    intro hmem
    obtain ⟨x, hx, rfl⟩ := List.mem_map.mp hmem
    have := List.lookup_eq_none_iff.mp hnode x hx
    simp at this

theorem inRange_ofTable [LinearOrder κ] (h : ∀ x ∈ table, ∀ e ∈ x.2.2, e.1 = v) (a : ν) :
    (ofTable table).InRange a v := by
  have hkey : ∀ k b c, (ofTable table).Separates k b c → k = v := by
    rintro k b c ⟨n, first, pre, m, post, hnode, -, -⟩
    exact h _ (mem_table hnode) (k, m) (List.mem_append_right _ List.mem_cons_self)
  exact fun k b => ⟨fun hs => (hkey k a b hs).ge, fun hs => (hkey k b a hs).le⟩

end Table

end KeyTree

end PagedDb
