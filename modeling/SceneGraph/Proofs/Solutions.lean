import Mathlib.Data.Fintype.Card
import Mathlib.Data.Fintype.EquivFin
import SceneGraph.Proofs.Isolation

/-!
Scenes in which all equations hold.

Where requirements lead to no cycle, the equations of all nodes can be solved together
(`exists_solution`): a node is solved once everything that it needs is.
-/

namespace SceneGraph

open Relation

namespace Scene

variable {w s z : Scene} {x : NodeId} {n : Node} {group : NodeId → Prop}

/-- What holds of a node as soon as it holds of all that the node needs, holds of every node
that leads to no cycle. -/
theorem induction_of_grounded (hw : w.WellFormed) {P : NodeId → Prop}
    (hstep : ∀ x n, w.node x = .ok n → w.graph.Grounded x →
      (∀ m, .node m ∈ needs [] x n → w.graph.Grounded m → P m) → P x)
    (hx : x < w.count) (hgrounded : w.graph.Grounded x) : P x := by
  let Place := {x : NodeId // x < w.count ∧ w.graph.Grounded x}
  let before (a b : Place) : Prop := TransGen (w.graph.Requires []) b.1 a.1
  have hfinite : Finite Place := Finite.of_injective (fun a => (⟨a.1, a.2.1⟩ : Fin w.count))
    fun a b h => Subtype.ext (Fin.mk.inj h)
  have htrans : IsTrans Place before := ⟨fun a b c hab hbc => hbc.trans hab⟩
  have hirrefl : Std.Irrefl before := ⟨fun a => a.2.2 a.1 .refl⟩
  have hwellFounded : WellFounded before := Finite.wellFounded_of_trans_of_irrefl before
  refine hwellFounded.induction (C := fun a => P a.1) ⟨x, hx, hgrounded⟩ fun a ih => ?_
  obtain ⟨n, hn⟩ := node_of_lt_count a.2.1
  refine hstep a.1 n hn a.2.2 fun m hm hgrounded => ?_
  exact ih ⟨m, lt_count_of_needs hw hn hm, hgrounded⟩ (.single ((requires_iff hn).mpr hm))

/-- A scene in which the equations of a group hold that has all it needs. -/
structure Solved (w : Scene) (s : Scene) (group : NodeId → Prop) (z : Scene) : Prop where
  touches : Touches w (fun _ => True) s z
  closed : w.Closed group
  satisfied : ∀ x, group x → ∀ n, w.node x = .ok n → z.Satisfied x n

/-- The entries that a node needs read only what the node needs. -/
theorem Ready.reads (hready : Ready group x n) :
    ∀ e ∈ needs [] x n, ∀ y ∈ reads e, group y := by
  intro e he y hy
  obtain ⟨pre, post, hneeds⟩ := List.append_of_mem he
  have hmem := reads_mem_of_orderly (hneeds ▸ orderly_needs x n) y hy
  refine hready y ?_
  rw [hneeds, ← RenderGraph.mem_nodes, Requirement.nodes_append, nodes_cons e post]
  simp only [List.nil_append, List.mem_append] at hmem ⊢
  tauto

/-- Only placing the content says anything of the content matrix. -/
theorem content_foldl_bring {rs : List Need}
    (h : ∀ part originX originY, .command (.step (.placeContent part originX originY)) ∉ rs)
    (known : Matrices) : (rs.foldl s.bring known).content = known.content := by
  induction rs generalizing known with
  | nil => rfl
  | cons e rs ih =>
      have hrest := ih (fun part originX originY hmem =>
        h part originX originY (List.mem_cons_of_mem e hmem)) (s.bring known e)
      rw [List.foldl_cons, hrest]
      unfold bring
      split
      · rfl
      · rfl
      · rfl
      · exact absurd List.mem_cons_self (h _ _ _)
      · rfl
      · rfl

/-- The matrices that are known replace the ones that are there. -/
def Matrices.over (known : Matrices) (c : Container) : Container :=
  { c with
    working := known.working.getD c.working
    content := known.content.getD c.content }

/-- A container gets the matrices that its equation asks for. -/
theorem exists_drawn (hw : w.WellFormed) (hs : s.wiring = w.wiring) (hgroup : w.Closed group)
    (hx : w.node x = .ok n) (hready : Ready group x n) (hfresh : ¬ group x) :
    ∃ t, Touches w (· = x) s t ∧ t.Drawn x ((needs [] x n).foldl t.bring {}) := by
  let known := (needs [] x n).foldl s.bring {}
  obtain ⟨t, ht⟩ := update_of_lt_count (count_eq_of_wiring hs ▸ lt_count_of_node hx)
    (Node.mapContainer (Matrices.over known))
  have htouches : Touches w (· = x) s t := by
    refine .mapContainer ht (fun _ => rfl) (Or.inl rfl) ?_
    refine or_iff_not_imp_right.mpr fun hpart c => ?_
    have hcontent : known.content = none := by
      refine content_foldl_bring (fun part originX originY hmem => hpart ⟨rfl, ?_⟩) {}
      obtain ⟨step, hstep, hemits⟩ := emits_of_needs hx hmem
      cases hstep
      cases hemits with
      | placeContent hp => exact ⟨_, hp⟩
    exact congrArg (Option.getD · c.content) hcontent
  have hkeeps := hgroup.keeps hw htouches (by rintro _ rfl; exact hfresh)
  refine ⟨t, htouches, ?_⟩
  rw [hkeeps.foldl_bring_eq hs hgroup hready.reads]
  have hempty : s.Drawn x {} := fun c _ => Matrices.describes_empty c
  refine hempty.mapContainer ht fun c _ => ⟨fun m hm => ?_, fun m hm => ?_⟩
  · exact congrArg (Option.getD · c.working) hm
  · exact congrArg (Option.getD · c.content) hm

namespace Solved

/-- Once a group has all that a node needs, the node can join it. -/
theorem settle (hw : w.WellFormed) (hs : s.wiring = w.wiring) (hz : Solved w s group z)
    (hx : w.node x = .ok n) (hready : Ready group x n) (hfresh : ¬ group x) :
    ∃ z', Solved w s (fun y => y = x ∨ group y) z' := by
  have hzw : z.wiring = w.wiring := hz.touches.wiring.trans hs
  obtain ⟨t, ht, hdrawn⟩ := exists_drawn hw hzw hz.closed hx hready hfresh
  have htw := ht.wiring.trans hzw
  have hkeeps := hz.closed.keeps hw ht (by rintro _ rfl; exact hfresh)
  have hsatisfied : ∀ y, group y → ∀ k, w.node y = .ok k → t.Satisfied y k := fun y hy k hk =>
    hkeeps.satisfied hw hzw hz.closed hy hk (hz.satisfied y hy k hk)
  obtain ⟨z', -, hz'⟩ := completes hw htw hz.closed hsatisfied hx hready hfresh hdrawn
  have hkeeps' := hz.closed.keeps hw hz'.touches (by rintro _ rfl; exact hfresh)
  refine ⟨z', ?_, ?_, ?_⟩
  · exact hz.touches.trans ((ht.mono fun _ _ => trivial).trans
      (hz'.touches.mono fun _ _ => trivial))
  · rintro y k (rfl | hy) hk m hm
    · obtain rfl := node_unique hk hx
      exact Or.inr (hready m hm)
    · exact Or.inr (hz.closed y k hy hk m hm)
  · rintro y (rfl | hy) k hk
    · obtain rfl := node_unique hk hx
      exact hz'.satisfied
    · exact hkeeps'.satisfied hw htw hz.closed hy hk (hsatisfied y hy k hk)

end Solved

/-- Whatever group is solved, a larger one with the node is. -/
def Joins (w s : Scene) (x : NodeId) : Prop :=
  ∀ group z, Solved w s group z →
    ∃ group' z', Solved w s group' z' ∧ (∀ y, group y → group' y) ∧ group' x

/-- Nodes that can join one by one can join together. -/
theorem joinAll {xs : List NodeId} (hxs : ∀ x ∈ xs, w.Joins s x) (hz : Solved w s group z) :
    ∃ group' z', Solved w s group' z' ∧ (∀ y, group y → group' y) ∧ ∀ x ∈ xs, group' x := by
  induction xs generalizing group z with
  | nil => exact ⟨group, z, hz, fun _ h => h, by simp⟩
  | cons x xs ih =>
      obtain ⟨group₁, z₁, hz₁, hsub₁, hx⟩ := hxs x List.mem_cons_self group z hz
      obtain ⟨group₂, z₂, hz₂, hsub₂, hrest⟩ :=
        ih (fun y hy => hxs y (List.mem_cons_of_mem x hy)) hz₁
      exact ⟨group₂, z₂, hz₂, fun y hy => hsub₂ y (hsub₁ y hy),
        List.forall_mem_cons.mpr ⟨hsub₂ x hx, hrest⟩⟩

/-- A node that leads to no cycle can join any group, after all that it needs. -/
theorem joins_of_grounded (hw : w.WellFormed) (hs : s.wiring = w.wiring) (hx : x < w.count)
    (hgrounded : w.graph.Grounded x) : w.Joins s x := by
  refine induction_of_grounded hw (fun x n hn hgrounded ih group z hz => ?_) hx hgrounded
  have hneeds : ∀ m ∈ Requirement.nodes (needs [] x n), w.Joins s m := by
    intro m hm
    have hm := RenderGraph.mem_nodes.mp hm
    exact ih m hm (hgrounded.of_requires (.single ((requires_iff hn).mpr hm)))
  obtain ⟨group₁, z₁, hz₁, hsub, hready⟩ := joinAll hneeds hz
  by_cases hx : group₁ x
  · exact ⟨group₁, z₁, hz₁, hsub, hx⟩
  · obtain ⟨z₂, hz₂⟩ := hz₁.settle hw hs hn
      (fun m hm => hready m (RenderGraph.mem_nodes.mpr hm)) hx
    exact ⟨_, z₂, hz₂, fun y hy => Or.inr (hsub y hy), Or.inl rfl⟩

/-- The equations of all nodes hold that lead to no cycle. -/
structure Solution (w z : Scene) : Prop where
  wiring : z.wiring = w.wiring
  satisfied : ∀ x, w.graph.Grounded x → ∀ n, w.node x = .ok n → z.Satisfied x n

/-- The equations can be solved together, without touching what no node of the scene writes. -/
theorem exists_solution (hw : w.WellFormed) (hs : s.wiring = w.wiring) :
    ∃ z, Touches w (fun _ => True) s z ∧ Solution w z := by
  classical
  have hempty : Solved w s (fun _ => False) s := ⟨.refl w _ s, nofun, nofun⟩
  have hjoins : ∀ x ∈ (List.range w.count).filter fun x => w.graph.Grounded x, w.Joins s x := by
    intro x hx
    obtain ⟨hx, hgrounded⟩ := List.mem_filter.mp hx
    exact joins_of_grounded hw hs (List.mem_range.mp hx) (of_decide_eq_true hgrounded)
  obtain ⟨group, z, hz, -, hall⟩ := joinAll hjoins hempty
  refine ⟨z, hz.touches, hz.touches.wiring.trans hs,
    fun x hx n hn => hz.satisfied x (hall x ?_) n hn⟩
  exact List.mem_filter.mpr ⟨List.mem_range.mpr (lt_count_of_node hn), decide_eq_true hx⟩

end Scene

end SceneGraph
