import Mathlib.Algebra.BigOperators.Group.Finset.Basic
import Mathlib.Algebra.BigOperators.Ring.Finset
import Mathlib.Combinatorics.SimpleGraph.Acyclic
import Mathlib.Data.List.Dedup
import Mathlib.Data.List.Perm.Basic

/-! # Flooding without turning back

A message starts at a node and every node that gets it passes it on to its neighbours,
except to the one it came from. Each copy of the message has come along a walk that never
turns straight back, and no two copies have come along the same walk. -/

namespace CliMessaging.Flood

variable {α : Type} [DecidableEq α] {R : α → List α} {o s t : α} {w w' : List α}
  {W F M : List (List α)} {has : α → Prop}

/-- Where the message goes after a walk, whose last node comes first. -/
def hops (R : α → List α) : List α → List α
  | [] => []
  | [v] => R v
  | v :: u :: _ => (R v).filter (· ≠ u)

/-- The walks along `R` from `o` that never turn straight back, last node first. -/
inductive Walk (R : α → List α) (o : α) : List α → Prop where
  | origin : Walk R o [o]
  | hop {t : α} {w : List α} : Walk R o w → t ∈ hops R w → Walk R o (t :: w)

theorem mem_hops_cons (h : t ∈ hops R (s :: w)) : t ∈ R s := by
  cases w with
  | nil => exact h
  | cons u w => exact List.mem_of_mem_filter h

theorem exists_of_mem_hops (h : t ∈ hops R w) : ∃ s u, w = s :: u ∧ t ∈ R s := by
  cases w with
  | nil => cases h
  | cons s u => exact ⟨s, u, rfl, mem_hops_cons h⟩

theorem Walk.ne_nil (h : Walk R o w) : w ≠ [] := by
  cases h <;> exact List.cons_ne_nil _ _

/-- No two walks lead to the same of the nodes in `has`. -/
def Unambiguous (R : α → List α) (o : α) (has : α → Prop) : Prop :=
  ∀ t w w', Walk R o (t :: w) → Walk R o (t :: w') → has t → w = w'

/-! ## Copies of the message -/

/-- The walks `W` along which the message has been passed on, and the walks `F` of the
copies still on their way. -/
structure Flooding (R : α → List α) (o : α) (W F : List (List α)) : Prop where
  root : [o] ∈ W
  walks : ∀ w ∈ W ++ F, Walk R o w
  parents : ∀ t w, t :: w ∈ W ++ F → w ≠ [] → w ∈ W
  nodup : (W ++ F).Nodup

theorem Flooding.start {next : List α} (hnext : ∀ t ∈ next, t ∈ R o) (hnd : next.Nodup) :
    Flooding R o [[o]] (next.map (· :: [o])) := by
  refine ⟨by simp, ?_, ?_, ?_⟩
  · intro w hw
    rcases List.mem_append.mp hw with hw | hw
    · rw [List.mem_singleton.mp hw]
      exact .origin
    · obtain ⟨t, ht, rfl⟩ := List.mem_map.mp hw
      exact .hop .origin (hnext t ht)
  · intro t w hw hne
    rcases List.mem_append.mp hw with hw | hw
    · cases List.mem_singleton.mp hw
      exact absurd rfl hne
    · obtain ⟨u, -, heq⟩ := List.mem_map.mp hw
      cases heq
      exact List.mem_singleton.mpr rfl
  · simp only [List.singleton_append, List.nodup_cons]
    refine ⟨by simp, hnd.map ?_⟩
    intro t u heq
    cases heq
    rfl

theorem Flooding.notMem (h : Flooding R o W F) (hw : w ∈ F) : w ∉ W :=
  fun hin => (List.nodup_append.mp h.nodup).2.2 w hin w hw rfl

/-- A copy has come along at least one hop. -/
theorem Flooding.exists_cons_cons (h : Flooding R o W F) (hw : w ∈ F) :
    ∃ t s u, w = t :: s :: u ∧ s :: u ∈ W ∧ t ∈ hops R (s :: u) := by
  cases h.walks w (List.mem_append_right _ hw) with
  | origin => exact absurd h.root (h.notMem hw)
  | @hop t v hv ht =>
      obtain ⟨s, u, rfl, -⟩ := exists_of_mem_hops ht
      exact ⟨t, s, u, rfl, h.parents t _ (List.mem_append_right _ hw) (List.cons_ne_nil _ _), ht⟩

/-- A copy that arrives is passed on to some of the next nodes. -/
theorem Flooding.hop {next : List α} (h : Flooding R o W F) (hw : w ∈ F)
    (hnext : ∀ t ∈ next, t ∈ hops R w) (hnd : next.Nodup) :
    Flooding R o (w :: W) (F.erase w ++ next.map (· :: w)) := by
  obtain ⟨hndW, hndF, hdisj⟩ := List.nodup_append.mp h.nodup
  have hwalk := h.walks w (List.mem_append_right _ hw)
  have hnew : ∀ t, t :: w ∉ W ++ F := fun t hin =>
    h.notMem hw (h.parents t w hin hwalk.ne_nil)
  have hold : ∀ v, v ∈ w :: W ++ F.erase w → v ∈ W ++ F := by
    intro v hv
    rcases List.mem_append.mp hv with hv | hv
    · rcases List.mem_cons.mp hv with rfl | hv
      · exact List.mem_append_right _ hw
      · exact List.mem_append_left _ hv
    · exact List.mem_append_right _ (List.mem_of_mem_erase hv)
  refine ⟨List.mem_cons_of_mem _ h.root, ?_, ?_, ?_⟩
  · intro v hv
    rw [← List.append_assoc] at hv
    rcases List.mem_append.mp hv with hv | hv
    · exact h.walks v (hold v hv)
    · obtain ⟨t, ht, rfl⟩ := List.mem_map.mp hv
      exact .hop hwalk (hnext t ht)
  · intro t v hv hne
    rw [← List.append_assoc] at hv
    rcases List.mem_append.mp hv with hv | hv
    · exact List.mem_cons_of_mem _ (h.parents t v (hold _ hv) hne)
    · obtain ⟨u, -, heq⟩ := List.mem_map.mp hv
      cases heq
      exact List.mem_cons_self
  · rw [← List.append_assoc]
    apply List.nodup_append.mpr
    refine ⟨?_, hnd.map fun t u heq => (List.cons.inj heq).1, ?_⟩
    · have hperm : (w :: W ++ F.erase w).Perm (W ++ F) :=
        List.perm_middle.symm.trans ((List.perm_cons_erase hw).symm.append_left W)
      exact hperm.nodup_iff.mpr h.nodup
    · rintro v hv _ hmap rfl
      obtain ⟨t, -, rfl⟩ := List.mem_map.mp hmap
      exact hnew t (hold _ hv)

/-- A copy is lost. -/
theorem Flooding.drop (h : Flooding R o W F) (w : List α) : Flooding R o W (F.erase w) := by
  have hsub : (W ++ F.erase w).Sublist (W ++ F) := (List.Sublist.refl W).append List.erase_sublist
  exact ⟨h.root, fun v hv => h.walks v (hsub.subset hv),
    fun t v hv => h.parents t v (hsub.subset hv), h.nodup.sublist hsub⟩

/-- How often the message has been passed on at `s`. -/
def visits (W : List (List α)) (s : α) : ℕ := W.countP fun w => w.head? = some s

theorem visits_cons (w : List α) (W : List (List α)) (s t : α) :
    visits ((t :: w) :: W) s = visits W s + if t = s then 1 else 0 := by
  simp [visits, List.countP_cons]

theorem exists_of_visits_pos (h : 0 < visits W s) : ∃ w, s :: w ∈ W := by
  obtain ⟨w, hw, hhead⟩ := List.countP_pos_iff.mp h
  cases w with
  | nil => simp at hhead
  | cons t w =>
      have hts : t = s := by simpa using hhead
      exact ⟨w, hts ▸ hw⟩

omit [DecidableEq α] in
theorem length_le_one_of_nodup {xs : List α} (hnd : xs.Nodup)
    (h : ∀ x ∈ xs, ∀ y ∈ xs, x = y) : xs.length ≤ 1 := by
  cases xs with
  | nil => simp
  | cons x xs =>
      cases xs with
      | nil => simp
      | cons y ys =>
          have heq : x = y := h x (by simp) y (by simp)
          rw [heq] at hnd
          simp at hnd

/-- Where walks are unambiguous, the message comes to a node at most once. -/
theorem Flooding.visits_le_one (h : Flooding R o W F) (hu : Unambiguous R o has)
    (hs : has s) : visits (W ++ F) s ≤ 1 := by
  have hall : ∀ w ∈ (W ++ F).filter (fun w => decide (w.head? = some s)),
      ∃ u, w = s :: u ∧ Walk R o (s :: u) := by
    intro w hw
    obtain ⟨hin, hhead⟩ := List.mem_filter.mp hw
    cases w with
    | nil => simp at hhead
    | cons t u =>
        have hts : t = s := by simpa using hhead
        subst hts
        exact ⟨u, rfl, h.walks _ hin⟩
  rw [visits, List.countP_eq_length_filter]
  apply length_le_one_of_nodup (h.nodup.filter _)
  intro w hw w' hw'
  obtain ⟨u, rfl, hwalk⟩ := hall w hw
  obtain ⟨u', rfl, hwalk'⟩ := hall w' hw'
  rw [hu s u u' hwalk hwalk' hs]

theorem visits_append (W F : List (List α)) (s : α) :
    visits (W ++ F) s = visits W s + visits F s :=
  List.countP_append

theorem visits_pos_of_mem (h : s :: w ∈ W) : 0 < visits W s :=
  List.countP_pos_iff.mpr ⟨s :: w, h, by simp⟩

/-- Counting the visits node by node. -/
theorem sum_visits_cons {nodes : Finset α} (ht : t ∈ nodes) (w : List α) (W : List (List α))
    (f : α → ℕ) :
    ∑ s ∈ nodes, visits ((t :: w) :: W) s * f s = (∑ s ∈ nodes, visits W s * f s) + f t := by
  simp only [visits_cons, add_mul, Finset.sum_add_distrib, ite_mul, one_mul, zero_mul]
  rw [Finset.sum_ite_eq, if_pos ht]

theorem sum_visits {nodes : Finset α} (h : ∀ w ∈ W, ∃ t u, w = t :: u ∧ t ∈ nodes) :
    ∑ s ∈ nodes, visits W s = W.length := by
  induction W with
  | nil => simp [visits]
  | cons w W ih =>
      obtain ⟨t, u, rfl, ht⟩ := h w List.mem_cons_self
      have hrest := ih fun v hv => h v (List.mem_cons_of_mem _ hv)
      have hcons := sum_visits_cons ht u W fun _ => 1
      simp only [mul_one] at hcons
      rw [hcons, hrest, List.length_cons]

/-- A copy that arrives where walks are unambiguous is the first one there. -/
theorem Flooding.first_visit (h : Flooding R o W F) (hu : Unambiguous R o has) (hs : has s)
    (hw : s :: w ∈ F) (w' : List α) : s :: w' ∉ W := by
  intro hw'
  have heq := hu s w w' (h.walks _ (List.mem_append_right _ hw))
    (h.walks _ (List.mem_append_left _ hw')) hs
  rw [← heq] at hw'
  exact h.notMem hw hw'

/-! ## Complete floods -/

/-- Every node has passed the message on to all the next nodes. -/
def Complete (R : α → List α) (W F : List (List α)) : Prop :=
  ∀ w ∈ W, ∀ t ∈ hops R w, t :: w ∈ W ++ F

theorem complete_start (R : α → List α) (o : α) : Complete R [[o]] ((R o).map (· :: [o])) := by
  intro w hw t ht
  rw [List.mem_singleton.mp hw] at ht ⊢
  exact List.mem_append_right _ (List.mem_map_of_mem ht)

theorem Complete.hop (h : Complete R W F) (hw : w ∈ F) :
    Complete R (w :: W) (F.erase w ++ (hops R w).map (· :: w)) := by
  intro v hv t ht
  rcases List.mem_cons.mp hv with rfl | hv
  · exact List.mem_append_right _ (List.mem_append_right _ (List.mem_map_of_mem ht))
  · rcases List.mem_append.mp (h v hv t ht) with hin | hin
    · exact List.mem_append_left _ (List.mem_cons_of_mem _ hin)
    · by_cases heq : t :: v = w
      · rw [heq]
        exact List.mem_append_left _ List.mem_cons_self
      · apply List.mem_append_right
        apply List.mem_append_left
        exact (List.mem_erase_of_ne heq).mpr hin

/-- When no copy is on its way any more, the message has come along every walk. -/
theorem Complete.mem_of_walk (h : Complete R W []) (hroot : [o] ∈ W) (hw : Walk R o w) :
    w ∈ W := by
  induction hw with
  | origin => exact hroot
  | hop _ ht ih => simpa using h _ ih _ ht

/-! ## Trees -/

section Trees

variable {G : SimpleGraph α}

/-- A walk that never turns straight back, as a walk of a graph from its last node. -/
theorem Walk.exists_walk (hR : ∀ s t, t ∈ R s → G.Adj s t) (hw : Walk R o w) :
    ∃ t, ∃ p : G.Walk t o, p.support = w ∧ p.edges.IsChain (· ≠ ·) := by
  induction hw with
  | origin => exact ⟨o, .nil, rfl, by simp⟩
  | @hop t w hw ht ih =>
      obtain ⟨s, p, rfl, hchain⟩ := ih
      cases p with
      | nil => exact ⟨t, .cons (hR _ t ht).symm .nil, rfl, by simp⟩
      | @cons _ v _ hadj q =>
          rw [SimpleGraph.Walk.support_cons, ← q.cons_tail_support] at ht
          obtain ⟨hts, hne⟩ := List.mem_filter.mp ht
          refine ⟨t, .cons (hR s t hts).symm (.cons hadj q), rfl, ?_⟩
          rw [SimpleGraph.Walk.edges_cons, SimpleGraph.Walk.edges_cons, List.isChain_cons_cons]
          refine ⟨?_, hchain⟩
          intro heq
          have htv : t ≠ v := by simpa using hne
          have hts' : t ≠ s := (hR s t hts).ne'
          rcases Sym2.eq_iff.mp heq with ⟨rfl, -⟩ | ⟨rfl, -⟩
          · exact hts' rfl
          · exact htv rfl

theorem unambiguous_of_isAcyclic (hG : G.IsAcyclic) (hR : ∀ s t, t ∈ R s → G.Adj s t) :
    Unambiguous R o has := by
  intro t w w' hw hw' _
  obtain ⟨s, p, hp, hchain⟩ := hw.exists_walk hR
  obtain ⟨s', p', hp', hchain'⟩ := hw'.exists_walk hR
  rw [← p.cons_tail_support] at hp
  rw [← p'.cons_tail_support] at hp'
  obtain ⟨rfl, rfl⟩ := List.cons.inj hp
  obtain ⟨rfl, rfl⟩ := List.cons.inj hp'
  have hpath := (hG.isPath_iff_isChain p).mpr hchain
  have hpath' := (hG.isPath_iff_isChain p').mpr hchain'
  have hsame : p = p' :=
    congrArg Subtype.val ((hG.subsingleton_path _ _).elim ⟨p, hpath⟩ ⟨p', hpath'⟩)
  rw [hsame]

/-- A path of the graph never turns straight back. -/
theorem walk_support (hR : ∀ s t, G.Adj s t → t ∈ R s) (p : G.Walk t o) (hp : p.IsPath) :
    Walk R o p.support := by
  induction p with
  | nil => exact .origin
  | @cons t s _ hadj q ih =>
      obtain ⟨hq, hnot⟩ := (SimpleGraph.Walk.cons_isPath_iff hadj q).mp hp
      refine .hop (ih hq) ?_
      cases q with
      | nil => exact hR _ t hadj.symm
      | @cons _ v _ hadj' q' =>
          rw [SimpleGraph.Walk.support_cons, ← q'.cons_tail_support]
          refine List.mem_filter.mpr ⟨hR s t hadj.symm, ?_⟩
          have htv : t ≠ v := by
            rintro rfl
            exact hnot (by simp)
          simpa using htv

theorem exists_walk_of_reachable (hR : ∀ s t, G.Adj s t → t ∈ R s) (h : G.Reachable t o) :
    ∃ w, Walk R o (t :: w) := by
  obtain ⟨p, hp⟩ := h.exists_isPath
  have hwalk := walk_support hR p hp
  rw [← p.cons_tail_support] at hwalk
  exact ⟨_, hwalk⟩

end Trees

/-! ## Schedules -/

/-- Walks in an order in which copies can be delivered so that each is the first copy
at its node. -/
inductive Schedule (R : α → List α) (o : α) (has : α → Prop) : List (List α) → Prop where
  | start : Schedule R o has [[o]]
  | visit {M : List (List α)} {t : α} {w : List α} : Schedule R o has M → w ∈ M →
      t ∈ hops R w → has t → (∀ w', t :: w' ∉ M) → Schedule R o has ((t :: w) :: M)

/-- After the schedule a copy is on its way to a node that has passed the message on. -/
def Collides (R : α → List α) (has : α → Prop) (M : List (List α)) : Prop :=
  ∃ t w w', w ∈ M ∧ t ∈ hops R w ∧ t :: w ∉ M ∧ has t ∧ t :: w' ∈ M

theorem Schedule.root_mem (h : Schedule R o has M) : [o] ∈ M := by
  induction h with
  | start => exact List.mem_singleton.mpr rfl
  | visit _ _ _ _ _ ih => exact List.mem_cons_of_mem _ ih

theorem Schedule.eq_of_head (h : Schedule R o has M) (hw : t :: w ∈ M) (hw' : t :: w' ∈ M) :
    w = w' := by
  induction h with
  | start =>
      cases List.mem_singleton.mp hw
      cases List.mem_singleton.mp hw'
      rfl
  | @visit M s u _ _ _ _ hfresh ih =>
      rcases List.mem_cons.mp hw with heq | hin
      · cases heq
        rcases List.mem_cons.mp hw' with heq' | hin'
        · cases heq'
          rfl
        · exact absurd hin' (hfresh _)
      · rcases List.mem_cons.mp hw' with heq' | hin'
        · cases heq'
          exact absurd hin (hfresh _)
        · exact ih hin hin'

/-- A schedule can be extended to any walk, unless a collision comes first. -/
theorem Schedule.extend (hR : ∀ s t, t ∈ R s → has s) (hM : Schedule R o has M)
    (hw : Walk R o w) (hhas : ∀ t u, w = t :: u → has t) :
    (∃ M', Schedule R o has M' ∧ M ⊆ M' ∧ w ∈ M') ∨
      ∃ M', Schedule R o has M' ∧ Collides R has M' := by
  induction hw with
  | origin => exact Or.inl ⟨M, hM, List.Subset.refl M, hM.root_mem⟩
  | @hop t w hw ht ih =>
      obtain ⟨s, u, rfl, hs⟩ := exists_of_mem_hops ht
      have hlast : ∀ s' u', s :: u = s' :: u' → has s' := by
        rintro s' u' ⟨⟩
        exact hR s t hs
      rcases ih hlast with ⟨M', hM', hsub, hin⟩ | hcol
      · by_cases hmem : t :: s :: u ∈ M'
        · exact Or.inl ⟨M', hM', hsub, hmem⟩
        · by_cases hseen : ∃ w', t :: w' ∈ M'
          · obtain ⟨w', hw'⟩ := hseen
            exact Or.inr ⟨M', hM', t, _, w', hin, ht, hmem, hhas t _ rfl, hw'⟩
          · refine Or.inl ⟨_, .visit hM' hin ht (hhas t _ rfl) (not_exists.mp hseen), ?_, ?_⟩
            · exact fun v hv => List.mem_cons_of_mem _ (hsub hv)
            · exact List.mem_cons_self
      · exact Or.inr hcol

/-- Where walks are ambiguous, some schedule ends in a collision. -/
theorem exists_collision (hR : ∀ s t, t ∈ R s → has s) (hnot : ¬ Unambiguous R o has) :
    ∃ M, Schedule R o has M ∧ Collides R has M := by
  simp only [Unambiguous, not_forall] at hnot
  obtain ⟨t, w, w', hw, hw', ht, hne⟩ := hnot
  have hlast : ∀ v s u, t :: v = s :: u → has s := by
    rintro v s u ⟨⟩
    exact ht
  rcases Schedule.extend hR .start hw (hlast w) with ⟨M₁, hM₁, -, hin₁⟩ | hcol
  · rcases Schedule.extend hR hM₁ hw' (hlast w') with ⟨M₂, hM₂, hsub, hin₂⟩ | hcol
    · exact absurd (hM₂.eq_of_head (hsub hin₁) hin₂) hne
    · exact hcol
  · exact hcol

end CliMessaging.Flood
