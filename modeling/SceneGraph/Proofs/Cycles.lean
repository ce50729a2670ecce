import Mathlib.Data.List.Chain
import SceneGraph.Proofs.Assembly

/-!
When a compile fails, and with what.

Main statement: a graph that embeds no lists fails to compile exactly if a visited node leads
back to itself, and what it fails with is such a cycle (`compile_fails_iff_cycle`).  Waiting
nodes form a chain of requirements without repetition, which bounds the depth of the search
and is the path of the cycle.
-/

namespace SceneGraph

variable {ν κ : Type}

/-- A cycle of a relation, given as a path from a node back to itself. -/
structure Cycle.ClosedBy (r : ν → ν → Prop) (c : Cycle ν) : Prop where
  length : 2 ≤ c.path.length
  head : c.path.head? = some c.node
  last : c.path.getLast? = some c.node
  chain : c.path.IsChain r
  nodup : c.path.dropLast.Nodup

/-- Requiring the last node of a chain again closes a cycle. -/
theorem Cycle.closedBy_closing [DecidableEq ν] {r : ν → ν → Prop} {pending : List ν} {n : ν}
    (hmem : n ∈ pending) (hnodup : pending.Nodup) (hchain : (pending ++ [n]).IsChain r) :
    (Cycle.closing pending n).ClosedBy r := by
  obtain ⟨before, after, rfl⟩ := List.append_of_mem hmem
  have hbefore : ∀ m ∈ before, decide (m ≠ n) = true := by
    intro m hm
    have hne : m ≠ n := fun heq =>
      (List.nodup_append.1 hnodup).2.2 m hm n List.mem_cons_self heq
    simpa using hne
  have hpath : (Cycle.closing (before ++ n :: after) n).path = n :: after ++ [n] := by
    rw [Cycle.closing, List.dropWhile_append_of_pos hbefore]
    simp
  refine ⟨by simp [hpath], by rw [hpath]; rfl, ?_, ?_, ?_⟩
  · rw [hpath, List.getLast?_append]
    rfl
  · rw [hpath]
    rw [List.append_assoc] at hchain
    exact hchain.right_of_append
  · rw [hpath, List.dropLast_concat]
    exact (List.nodup_append.1 hnodup).2.1

/-- The node of a cycle leads back to itself. -/
theorem Cycle.ClosedBy.transGen {r : ν → ν → Prop} {c : Cycle ν} (h : c.ClosedBy r) :
    Relation.TransGen r c.node c.node := by
  obtain ⟨n, path⟩ := c
  obtain ⟨hlength, hhead, hlast, hchain, -⟩ := h
  match path with
  | [] | [_] => simp at hlength
  | m :: m' :: rest =>
      obtain rfl : m = n := by simpa using hhead
      obtain ⟨hfirst, hrest⟩ := List.isChain_cons_cons.1 hchain
      refine .head' hfirst (List.relationReflTransGen_of_exists_isChain_cons rest hrest ?_)
      simpa [List.getLast?_eq_some_getLast] using hlast

theorem Cycle.ClosedBy.mono {r r' : ν → ν → Prop} {c : Cycle ν} (h : c.ClosedBy r)
    (hr : ∀ n m, r n m → r' n m) : c.ClosedBy r' :=
  ⟨h.length, h.head, h.last, h.chain.imp hr, h.nodup⟩

namespace Traced

/-- A fold fails at one of its items, after the items before it went well. -/
theorem result_foldlM_eq_error {ε φ α β : Type} {f : β → α → Traced ε φ β} {l : List α} {b : β}
    {e : φ} (h : (l.foldlM f b).result = .error e) :
    ∃ before a after b', l = before ++ a :: after ∧ (before.foldlM f b).result = .ok b' ∧
      (f b' a).result = .error e := by
  induction l generalizing b with
  | nil => simp at h
  | cons a l ih =>
      rw [List.foldlM_cons, result_bind_eq_error] at h
      rcases h with h | ⟨b', hb', h⟩
      · exact ⟨[], a, l, b, rfl, by simp, h⟩
      · obtain ⟨before, a', after, b'', rfl, hbefore, herror⟩ := ih h
        refine ⟨a :: before, a', after, b'', rfl, ?_, herror⟩
        rw [List.foldlM_cons, result_bind_eq_ok]
        exact ⟨b', hb', hbefore⟩

end Traced

namespace RenderGraph

open Relation

/-- Every node that a graph names is one of its nodes. -/
structure Closed (g : RenderGraph ν κ) (isolated : List ν) : Prop where
  requirements : ∀ n ∈ g.nodes, ∀ m, g.Requires isolated n m → m ∈ g.nodes
  children : ∀ n ∈ g.nodes, ∀ m ∈ g.children isolated n, m ∈ g.nodes

/-- What a list visits are nodes of the graph. -/
theorem Visited.mem_nodes {g : RenderGraph ν κ} {isolated : List ν} {root n : ν}
    (h : g.Visited isolated root n) (hclosed : g.Closed isolated) (hroot : root ∈ g.nodes) :
    n ∈ g.nodes := by
  induction h with
  | resolved hn =>
      induction hn with
      | root => exact hroot
      | child _ hm ih => exact hclosed.children _ ih _ hm
  | required _ hm ih => exact hclosed.requirements _ ih _ hm

/-- No node contributes the list of another. -/
def EmbedsNothing (g : RenderGraph ν κ) (isolated : List ν) : Prop :=
  ∀ n m, .embed m ∉ g.contributions isolated n

variable {g : RenderGraph ν κ} {nested : Nested ν κ} {isolated pending : List ν} {root n : ν}
  {task : Task ν κ} {s t : CompileState ν κ} {e : CompileFailure ν}

/-- Why a compile fails that visits some nodes: one of them leads back to itself, or a list that
one of them embeds cannot be made. -/
inductive Failing (g : RenderGraph ν κ) (nested : Nested ν κ) (isolated : List ν)
    (visited : ν → Prop) : CompileFailure ν → Prop
  | cycle {c : Cycle ν} (hc : c.ClosedBy (g.Requires isolated)) (hvisited : visited c.node) :
      Failing g nested isolated visited (.cycle c)
  | embed {n m : ν} {e : CompileFailure ν} (hn : visited n)
      (hm : .embed m ∈ g.contributions isolated n)
      (he : (nested (isolated ++ [m]) m).result = .error e) : Failing g nested isolated visited e

theorem Failing.mono {visited visited' : ν → Prop} (h : g.Failing nested isolated visited e)
    (hvisited : ∀ n, visited n → visited' n) : g.Failing nested isolated visited' e := by
  cases h with
  | cycle hc hn => exact .cycle hc (hvisited _ hn)
  | embed hn hm he => exact .embed (hvisited _ hn) hm he

/-- A graph without embedded lists fails with a cycle only. -/
theorem Failing.exists_cycle {visited : ν → Prop} (h : g.Failing nested isolated visited e)
    (hembeds : g.EmbedsNothing isolated) :
    ∃ c, e = .cycle c ∧ c.ClosedBy (g.Requires isolated) ∧ visited c.node := by
  cases h with
  | cycle hc hn => exact ⟨_, rfl, hc, hn⟩
  | embed _ hm _ => exact (hembeds _ _ hm).elim

theorem contribute_all_eq_error {cs : List (Contribution ν κ)}
    (h : (cs.mapM (g.contribute nested isolated)).result = .error e) :
    ∃ m, .embed m ∈ cs ∧ (nested (isolated ++ [m]) m).result = .error e := by
  induction cs with
  | nil => simp at h
  | cons c cs ih =>
      rw [List.mapM_cons, Traced.result_bind_eq_error] at h
      rcases h with h | ⟨_, _, h⟩
      · cases c with
        | command c => simp [contribute] at h
        | embed m =>
            rw [contribute, Traced.result_bind_eq_error] at h
            refine ⟨m, List.mem_cons_self, h.resolve_right ?_⟩
            simp
      · rw [Traced.result_bind_eq_error] at h
        obtain ⟨m, hm, he⟩ := ih (h.resolve_right (by simp))
        exact ⟨m, List.mem_cons_of_mem _ hm, he⟩

theorem add_eq_error (h : (g.add nested isolated s n).result = .error e) :
    ∃ m, .embed m ∈ g.contributions isolated n ∧
      (nested (isolated ++ [m]) m).result = .error e := by
  rw [add, Traced.result_bind_eq_error] at h
  rcases h with h | ⟨own, _, h⟩
  · exact contribute_all_eq_error h
  · split at h <;> simp [Except.map] at h

theorem Search.expanded_nodup (h : g.Search nested isolated pending task s t)
    (hnodup : s.expanded.Nodup) : t.expanded.Nodup := by
  induction h with
  | present | gathered | resolvedAll => exact hnodup
  | fresh _ _ _ _ _ ih | gap _ ih | inline _ ih | inHand _ _ ih => exact ih hnodup
  | upstream _ _ ihm ihrest => exact ihrest (ihm hnodup)
  | expand _ hn _ ihn ihchildren => exact ihchildren (List.nodup_cons.2 ⟨hn, ihn hnodup⟩)
  | child _ _ ihn ihrest => exact ihrest (ihn hnodup)

variable [DecidableEq ν]

/-- Requiring a node fails only because a chain of requirements comes back to itself, or because
of an embedded list.  A chain is no longer than the graph has nodes, so the depth is never used
up. -/
theorem require_eq_error {depth : Nat} (hclosed : g.Closed isolated) (hnodup : pending.Nodup)
    (hnodes : pending ⊆ g.nodes) (hn : n ∈ g.nodes)
    (hdepth : g.nodes.length < depth + pending.length)
    (hchain : (pending ++ [n]).IsChain (g.Requires isolated))
    (h : (g.require nested isolated root depth pending s n).result = .error e) :
    g.Failing nested isolated (ReflTransGen (g.Requires isolated) n) e := by
  induction depth generalizing pending s n with
  | zero =>
      have hlength := hnodup.length_le_of_subset hnodes
      omega
  | succ depth ih =>
      rw [require] at h
      by_cases hadded : n ∈ s.added
      · simp [hadded] at h
      by_cases hpending : n ∈ pending
      · have he : CompileFailure.cycle (.closing pending n) = e := by
          simpa [hadded, hpending, Except.bind] using h
        exact he ▸ .cycle (Cycle.closedBy_closing hpending hnodup hchain) .refl
      rw [if_neg hadded, if_neg hpending, if_pos hn, Traced.result_bind_eq_error] at h
      rcases h with h | ⟨_, _, h⟩
      · obtain ⟨_, r, _, u, hrs, _, hr⟩ := Traced.result_foldlM_eq_error h
        cases r with
        | gap | command c => simp [meet] at hr
        | node m =>
            have hm : g.Requires isolated n m := by simp [Requires, hrs]
            have hlast : (pending ++ [n] ++ [m]).IsChain (g.Requires isolated) := by
              refine List.isChain_append.2 ⟨hchain, .singleton m, ?_⟩
              simpa using hm
            have hother : ∀ p ∈ pending, p ≠ n := fun p hp heq => hpending (heq ▸ hp)
            have hfailing := ih
              (List.nodup_append.2 ⟨hnodup, List.nodup_singleton n, by simpa using hother⟩)
              (by simpa using ⟨hnodes, hn⟩) (hclosed.requirements n hn m hm)
              (by simp only [List.length_append, List.length_singleton]; omega) hlast hr
            exact hfailing.mono fun k hk => .head hm hk
      · obtain ⟨m, hm, he⟩ := add_eq_error h
        exact .embed .refl hm he

/-- Resolving a node fails only because of the nodes that it visits. -/
theorem resolve_eq_error {depth : Nat} (hclosed : g.Closed isolated) (hnodup : s.expanded.Nodup)
    (hexpanded : s.expanded ⊆ s.added) (hadded : s.added ⊆ g.nodes) (hn : n ∈ g.nodes)
    (hdepth : g.nodes.length < depth + s.expanded.length)
    (h : (g.resolve nested isolated root depth s n).result = .error e) :
    g.Failing nested isolated (g.Visited isolated n) e := by
  induction depth generalizing s n with
  | zero =>
      have hlength := hnodup.length_le_of_subset (List.Subset.trans hexpanded hadded)
      omega
  | succ depth ih =>
      rw [resolve, Traced.result_bind_eq_error] at h
      rcases h with h | ⟨t, ht, h⟩
      · have hfailing := require_eq_error hclosed List.nodup_nil (by simp) hn (by simp)
          (by simp) h
        exact hfailing.mono fun k hk => .of_requires (.resolved .root) hk
      have hsearch := search_of_require ht
      by_cases hmem : n ∈ t.expanded
      · simp [hmem] at h
      rw [if_neg hmem] at h
      obtain ⟨before, m, _, u, hchildren, hbefore, hm⟩ := Traced.result_foldlM_eq_error h
      have hsearch' : g.Search nested isolated [] (.resolveAll before) (t.expand n) u :=
        search_of_resolveAll (fun _ _ _ => search_of_resolve) hbefore
      have hmem' : m ∈ g.children isolated n := by simp [hchildren]
      have hnodup' : (t.expand n).expanded.Nodup :=
        List.nodup_cons.2 ⟨hmem, hsearch.expanded_nodup hnodup⟩
      have hexpanded' : (t.expand n).expanded ⊆ (t.expand n).added :=
        List.cons_subset.2 ⟨hsearch.achieved, hsearch.expanded_added hexpanded⟩
      have hgrown : s.expanded.length ≤ t.expanded.length :=
        hnodup.length_le_of_subset hsearch.expanded_subset
      have hgrown' : (t.expand n).expanded.length ≤ u.expanded.length :=
        hnodup'.length_le_of_subset hsearch'.expanded_subset
      rw [CompileState.expanded_expand, List.length_cons] at hgrown'
      have hfailing := ih (hsearch'.expanded_nodup hnodup') (hsearch'.expanded_added hexpanded')
        (hsearch'.added_nodes (hsearch.added_nodes hadded))
        (hclosed.children n hn m hmem') (by omega) hm
      exact hfailing.mono fun k hk => hk.of_resolved (.child .root hmem')

theorem failing_of_compileWith (hclosed : g.Closed isolated) (hroot : root ∈ g.nodes)
    (h : (g.compileWith nested isolated root).result = .error e) :
    g.Failing nested isolated (g.Visited isolated root) e := by
  rw [compileWith, Traced.result_bind_eq_error] at h
  rcases h with h | ⟨_, _, h⟩
  · simp at h
  rw [Traced.result_bind_eq_error] at h
  rcases h with h | ⟨s, _, h⟩
  · exact resolve_eq_error hclosed List.nodup_nil (by simp) (by simp) hroot (by simp) h
  · simp [Except.map] at h

theorem compileWith_eq_error (hclosed : g.Closed isolated) (hembeds : g.EmbedsNothing isolated)
    (hroot : root ∈ g.nodes) (h : (g.compileWith nested isolated root).result = .error e) :
    ∃ c, e = .cycle c ∧ c.ClosedBy (g.Requires isolated) ∧ g.Visited isolated root c.node :=
  (failing_of_compileWith hclosed hroot h).exists_cycle hembeds

/-- A graph without embedded lists fails to compile exactly if some visited node requires
itself, directly or through others.  It then fails with a cycle whose path leads along
requirements from a node back to itself and meets no node twice on the way. -/
theorem compile_fails_iff_cycle (g : RenderGraph ν κ) (root : ν) (hroot : root ∈ g.nodes)
    (hclosed : g.Closed []) (hembeds : g.EmbedsNothing []) :
    ((∃ e, (g.compile root).result = .error e) ↔
        ∃ n, g.Visited [] root n ∧ TransGen (g.Requires []) n n) ∧
      ∀ e, (g.compile root).result = .error e →
        ∃ c, e = .cycle c ∧ c.ClosedBy (g.Requires []) ∧ g.Visited [] root c.node := by
  have herror : ∀ e, (g.compile root).result = .error e →
      ∃ c, e = .cycle c ∧ c.ClosedBy (g.Requires []) ∧ g.Visited [] root c.node := by
    intro e he
    rw [compile_eq_compileWith] at he
    exact compileWith_eq_error hclosed hembeds hroot he
  refine ⟨⟨?_, ?_⟩, herror⟩
  · rintro ⟨e, he⟩
    obtain ⟨c, -, hc, hvisited⟩ := herror e he
    exact ⟨c.node, hvisited, hc.transGen⟩
  · rintro ⟨n, hn, hcycle⟩
    cases hresult : (g.compile root).result with
    | error e => exact ⟨e, rfl⟩
    | ok list =>
        obtain ⟨s, hs, -⟩ := assembled_of_compile hresult
        exact (hs.acyclic ((hs.mem_added n).2 hn) hcycle).elim

/-- Node 1 has the child 2, which has the child 1; nodes 2 and 3 require each other. -/
def ring : RenderGraph Nat Nat where
  nodes := [1, 2, 3]
  requirements _ n := if n = 2 then [.node 3] else if n = 3 then [.gap, .node 2] else []
  contributions _ n := [.command n]
  children _ n := if n = 1 then [2] else if n = 2 then [1] else []
  inputIndex _ := none
  embed _ := 0

theorem compile_fails_iff_cycle_ring :
    (ring.compile 1).result = .error (.cycle ⟨2, [2, 3, 2]⟩) ∧
      (∃ n, ring.Visited [] 1 n ∧ TransGen (ring.Requires []) n n) ∧
      Cycle.ClosedBy (ring.Requires []) ⟨2, [2, 3, 2]⟩ := by
  have hclosed : ring.Closed [] := by
    constructor
    · intro n _ m hm
      by_cases h2 : n = 2 <;> by_cases h3 : n = 3 <;> simp_all [ring, Requires]
    · intro n _ m hm
      by_cases h1 : n = 1 <;> by_cases h2 : n = 2 <;> simp_all [ring]
  have hresult : (ring.compile 1).result = .error (.cycle ⟨2, [2, 3, 2]⟩) := by rfl
  obtain ⟨hiff, hcycle⟩ := compile_fails_iff_cycle ring 1 (by decide) hclosed
    (by simp [EmbedsNothing, ring])
  obtain ⟨c, hc, hclosedBy, -⟩ := hcycle _ hresult
  obtain rfl : ⟨2, [2, 3, 2]⟩ = c := by simpa using hc
  exact ⟨hresult, hiff.1 ⟨_, hresult⟩, hclosedBy⟩

end RenderGraph

end SceneGraph
