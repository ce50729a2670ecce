import Mathlib.Data.List.Nodup
import SceneGraph.Proofs.Search

/-!
How the state of a compile grows.

A search only ever appends.  What it appends belongs to nodes that were not in the list
before, so whatever was said of the list and of the nodes in it stays true.  In the end the
list holds exactly the visited nodes, each of them once.
-/

namespace SceneGraph

variable {ν κ : Type}

namespace RenderGraph

variable {g : RenderGraph ν κ} {nested : Nested ν κ} {isolated pending : List ν}
  {task : Task ν κ} {s t : CompileState ν κ} {n m k root : ν}

open Relation

/-- The waiting node that a task appends commands for. -/
def Task.waiting? : Task ν κ → Option ν
  | .gather n _ => some n
  | _ => none

/-- What a task has achieved once it succeeded. -/
def Task.Achieved (t : CompileState ν κ) : Task ν κ → Prop
  | .require n => n ∈ t.added
  | .gather _ rs => ∀ m ∈ Requirement.nodes rs, m ∈ t.added
  | .resolve n => n ∈ t.added ∧ n ∈ t.expanded
  | .resolveAll ns => ∀ n ∈ ns, n ∈ t.added ∧ n ∈ t.expanded

/-- The nodes that a task may bring into the list. -/
def Task.LeadsTo (g : RenderGraph ν κ) (isolated : List ν) (k : ν) : Task ν κ → Prop
  | .require n => ReflTransGen (g.Requires isolated) n k
  | .gather _ rs => ∃ m ∈ Requirement.nodes rs, ReflTransGen (g.Requires isolated) m k
  | .resolve n => g.Visited isolated n k
  | .resolveAll ns => ∃ n ∈ ns, g.Visited isolated n k

/-- The nodes whose children a task may take in hand. -/
def Task.Resolves (g : RenderGraph ν κ) (isolated : List ν) (k : ν) : Task ν κ → Prop
  | .resolve n => g.Resolved isolated n k
  | .resolveAll ns => ∃ n ∈ ns, g.Resolved isolated n k
  | _ => False

@[simp] theorem mem_nodes {rs : List (Requirement ν κ)} :
    m ∈ Requirement.nodes rs ↔ .node m ∈ rs := by
  simp only [Requirement.nodes, List.mem_filterMap]
  constructor
  · rintro ⟨r, hr, heq⟩
    cases r <;> simp_all
  · intro h
    exact ⟨_, h, rfl⟩

theorem Resolved.trans (hm : g.Resolved isolated root m) (hk : g.Resolved isolated m k) :
    g.Resolved isolated root k := by
  induction hk with
  | root => exact hm
  | child _ hchild ih => exact .child ih hchild

theorem Visited.of_resolved (hm : g.Resolved isolated root m)
    (hk : g.Visited isolated m k) : g.Visited isolated root k := by
  induction hk with
  | resolved hk => exact .resolved (hm.trans hk)
  | required _ hrequires ih => exact .required ih hrequires

theorem Visited.of_requires (hm : g.Visited isolated root m)
    (hk : ReflTransGen (g.Requires isolated) m k) : g.Visited isolated root k := by
  induction hk with
  | refl => exact hm
  | tail _ hrequires ih => exact .required ih hrequires

theorem waits_append (hwait : ∀ p ∈ pending, p ∉ s.added) (hadded : n ∉ s.added) :
    ∀ p ∈ pending ++ [n], p ∉ s.added := by
  simpa [or_imp, forall_and] using ⟨hwait, hadded⟩

/-- When the last waiting node enters the list, the other ones wait. -/
theorem waits_complete (hwait : ∀ p ∈ pending ++ [n], p ∉ s.added) (hpending : n ∉ pending)
    (own : List κ) : ∀ p ∈ pending, p ∉ (s.complete n own).added := by
  intro p hp hmem
  rcases List.mem_cons.1 hmem with rfl | hmem
  · exact hpending hp
  · exact hwait p (List.mem_append_left _ hp) hmem

namespace Search

theorem added_subset (h : g.Search nested isolated pending task s t) : s.added ⊆ t.added := by
  induction h with
  | present | gathered | resolvedAll => exact List.Subset.refl _
  | fresh _ _ _ _ _ ih => exact List.Subset.trans ih (List.subset_cons_self _ _)
  | gap _ ih | inline _ ih | inHand _ _ ih => exact ih
  | upstream _ _ ihm ihrest => exact List.Subset.trans ihm ihrest
  | expand _ _ _ ihn ihchildren => exact List.Subset.trans ihn ihchildren
  | child _ _ ihn ihrest => exact List.Subset.trans ihn ihrest

theorem expanded_subset (h : g.Search nested isolated pending task s t) :
    s.expanded ⊆ t.expanded := by
  induction h with
  | present | gathered | resolvedAll => exact List.Subset.refl _
  | fresh _ _ _ _ _ ih | gap _ ih | inline _ ih | inHand _ _ ih => exact ih
  | upstream _ _ ihm ihrest => exact List.Subset.trans ihm ihrest
  | expand _ _ _ ihn ihchildren =>
      exact List.Subset.trans ihn (List.Subset.trans (List.subset_cons_self _ _) ihchildren)
  | child _ _ ihn ihrest => exact List.Subset.trans ihn ihrest

theorem achieved (h : g.Search nested isolated pending task s t) : task.Achieved t := by
  induction h with
  | present hadded => exact hadded
  | fresh => exact List.mem_cons_self
  | gathered => simp [Task.Achieved]
  | gap _ ih => simpa [Task.Achieved] using ih
  | inline _ ih => simpa [Task.Achieved] using ih
  | upstream _ hrest ihm ihrest =>
      have hm := hrest.added_subset ihm
      simpa [Task.Achieved] using ⟨hm, by simpa [Task.Achieved] using ihrest⟩
  | inHand _ hexpanded ih => exact ⟨ih, hexpanded⟩
  | expand _ _ hchildren ihn _ =>
      exact ⟨hchildren.added_subset ihn, hchildren.expanded_subset List.mem_cons_self⟩
  | resolvedAll => simp [Task.Achieved]
  | child _ hrest ihn ihrest =>
      have hn := And.intro (hrest.added_subset ihn.1) (hrest.expanded_subset ihn.2)
      simpa [Task.Achieved] using ⟨hn, by simpa [Task.Achieved] using ihrest⟩

/-- Waiting nodes go on waiting. -/
theorem waits (h : g.Search nested isolated pending task s t)
    (hwait : ∀ p ∈ pending, p ∉ s.added) : ∀ p ∈ pending, p ∉ t.added := by
  induction h with
  | present | gathered | resolvedAll => exact hwait
  | fresh hadded hpending _ _ _ ih =>
      exact waits_complete (ih (waits_append hwait hadded)) hpending _
  | gap _ ih | inline _ ih | inHand _ _ ih => exact ih hwait
  | upstream _ _ ihm ihrest => exact ihrest (ihm hwait)
  | expand _ _ _ ihn ihchildren => exact ihchildren (ihn hwait)
  | child _ _ ihn ihrest => exact ihrest (ihn hwait)

theorem added_nodup (h : g.Search nested isolated pending task s t)
    (hwait : ∀ p ∈ pending, p ∉ s.added) (hnodup : s.added.Nodup) : t.added.Nodup := by
  induction h with
  | present | gathered | resolvedAll => exact hnodup
  | @fresh pending s t n _ hadded _ _ hgather _ ih =>
      have hwait' := waits_append hwait hadded
      exact List.nodup_cons.2 ⟨hgather.waits hwait' n (by simp), ih hwait' hnodup⟩
  | gap _ ih | inline _ ih | inHand _ _ ih => exact ih hwait hnodup
  | upstream hm _ ihm ihrest => exact ihrest (hm.waits hwait) (ihm hwait hnodup)
  | expand hn _ _ ihn ihchildren => exact ihchildren (hn.waits hwait) (ihn hwait hnodup)
  | child hn _ ihn ihrest => exact ihrest (hn.waits hwait) (ihn hwait hnodup)

/-- Only nodes of the graph enter the list. -/
theorem added_nodes (h : g.Search nested isolated pending task s t)
    (hnodes : s.added ⊆ g.nodes) : t.added ⊆ g.nodes := by
  induction h with
  | present | gathered | resolvedAll => exact hnodes
  | fresh _ _ hn _ _ ih => exact List.cons_subset.2 ⟨hn, ih hnodes⟩
  | gap _ ih | inline _ ih | inHand _ _ ih => exact ih hnodes
  | upstream _ _ ihm ihrest => exact ihrest (ihm hnodes)
  | expand _ _ _ ihn ihchildren => exact ihchildren (ihn hnodes)
  | child _ _ ihn ihrest => exact ihrest (ihn hnodes)

theorem leadsTo (h : g.Search nested isolated pending task s t) :
    ∀ k ∈ t.added, k ∈ s.added ∨ task.LeadsTo g isolated k := by
  induction h with
  | present | gathered | resolvedAll => exact fun _ => .inl
  | fresh _ _ _ _ _ ih =>
      intro k hk
      rcases List.mem_cons.1 hk with rfl | hk
      · exact .inr .refl
      · refine (ih k hk).imp_right ?_
        rintro ⟨m, hm, hmk⟩
        exact .head (mem_nodes.1 hm) hmk
  | gap _ ih => simpa [Task.LeadsTo] using ih
  | inline _ ih => simpa [Task.LeadsTo] using ih
  | upstream _ _ ihm ihrest =>
      intro k hk
      rcases ihrest k hk with hk | ⟨m, hm, hmk⟩
      · exact (ihm k hk).imp_right fun hlead => ⟨_, by simp, hlead⟩
      · exact .inr ⟨m, by simp at hm ⊢; exact .inr hm, hmk⟩
  | inHand _ _ ih => exact fun k hk => (ih k hk).imp_right (Visited.of_requires (.resolved .root))
  | expand _ _ _ ihn ihchildren =>
      intro k hk
      rcases ihchildren k hk with hk | ⟨m, hm, hmk⟩
      · exact (ihn k hk).imp_right (Visited.of_requires (.resolved .root))
      · exact .inr (hmk.of_resolved (.child .root hm))
  | child _ _ ihn ihrest =>
      intro k hk
      rcases ihrest k hk with hk | ⟨m, hm, hmk⟩
      · exact (ihn k hk).imp_right fun hlead => ⟨_, List.mem_cons_self, hlead⟩
      · exact .inr ⟨m, List.mem_cons_of_mem _ hm, hmk⟩

theorem resolves (h : g.Search nested isolated pending task s t) :
    ∀ k ∈ t.expanded, k ∈ s.expanded ∨ task.Resolves g isolated k := by
  induction h with
  | present | gathered | resolvedAll => exact fun _ => .inl
  | fresh _ _ _ _ _ ih | gap _ ih | inline _ ih => simpa [Task.Resolves] using ih
  | upstream _ _ ihm ihrest =>
      intro k hk
      rcases ihrest k hk with hk | hk
      · exact (ihm k hk).imp_right False.elim
      · exact hk.elim
  | inHand _ _ ih => exact fun k hk => (ih k hk).imp_right False.elim
  | expand _ _ _ ihn ihchildren =>
      intro k hk
      rcases ihchildren k hk with hk | ⟨m, hm, hmk⟩
      · rcases List.mem_cons.1 hk with rfl | hk
        · exact .inr .root
        · exact (ihn k hk).imp_right False.elim
      · exact .inr (Resolved.trans (.child .root hm) hmk)
  | child _ _ ihn ihrest =>
      intro k hk
      rcases ihrest k hk with hk | ⟨m, hm, hmk⟩
      · exact (ihn k hk).imp_right fun hlead => ⟨_, List.mem_cons_self, hlead⟩
      · exact .inr ⟨m, List.mem_cons_of_mem _ hm, hmk⟩

/-- The children of a node that a search takes in hand are in hand when it is over.  Those of
the nodes around it may still be due. -/
theorem children_expanded (h : g.Search nested isolated pending task s t) :
    ∀ k ∈ t.expanded, k ∈ s.expanded ∨ ∀ m ∈ g.children isolated k, m ∈ t.expanded := by
  induction h with
  | present | gathered | resolvedAll => exact fun _ => .inl
  | fresh _ _ _ _ _ ih | gap _ ih | inline _ ih | inHand _ _ ih => exact ih
  | upstream _ hrest ihm ihrest =>
      intro k hk
      rcases ihrest k hk with hk | hk
      · exact (ihm k hk).imp_right fun hdue m hm => hrest.expanded_subset (hdue m hm)
      · exact .inr hk
  | expand _ _ hchildren ihn ihchildren =>
      intro k hk
      rcases ihchildren k hk with hk | hk
      · rcases List.mem_cons.1 hk with rfl | hk
        · exact .inr fun m hm => (hchildren.achieved m hm).2
        · refine (ihn k hk).imp_right fun hdue m hm => ?_
          exact hchildren.expanded_subset (List.mem_cons_of_mem _ (hdue m hm))
      · exact .inr hk
  | child _ hrest ihn ihrest =>
      intro k hk
      rcases ihrest k hk with hk | hk
      · exact (ihn k hk).imp_right fun hdue m hm => hrest.expanded_subset (hdue m hm)
      · exact .inr hk

/-- A node in hand is in the list. -/
theorem expanded_added (h : g.Search nested isolated pending task s t)
    (hadded : s.expanded ⊆ s.added) : t.expanded ⊆ t.added := by
  induction h with
  | present | gathered | resolvedAll => exact hadded
  | fresh _ _ _ _ _ ih => exact List.Subset.trans (ih hadded) (List.subset_cons_self _ _)
  | gap _ ih | inline _ ih | inHand _ _ ih => exact ih hadded
  | upstream _ _ ihm ihrest => exact ihrest (ihm hadded)
  | expand hn _ _ ihn ihchildren =>
      exact ihchildren (List.cons_subset.2 ⟨hn.achieved, ihn hadded⟩)
  | child _ _ ihn ihrest => exact ihrest (ihn hadded)

end Search

end RenderGraph

end SceneGraph
