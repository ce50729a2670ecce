import Mathlib.Data.List.Forall2
import Mathlib.Logic.Relation
import SceneGraph.RenderGraph.Compile

/-!
The depth-first search of a compile, as derivations.

`Search` has one rule for each way in which a part of a successful compile can go, and a
successful compile leaves a derivation behind (`search_of_require`, `search_of_resolve`).
What a compile does to its state is proved by induction on these derivations.
-/

namespace SceneGraph

variable {ν κ : Type}

namespace Traced

variable {ε φ α β : Type}

@[simp] theorem result_map (f : α → β) (x : Traced ε φ α) :
    (f <$> x).result = x.result.map f := by
  rw [map_eq_pure_bind, result_bind]
  cases x.result <;> rfl

theorem result_bind_eq_ok {x : Traced ε φ α} {f : α → Traced ε φ β} {b : β} :
    (x >>= f).result = .ok b ↔ ∃ a, x.result = .ok a ∧ (f a).result = .ok b := by
  cases h : x.result <;> simp [h, Except.bind]

theorem result_bind_eq_error {x : Traced ε φ α} {f : α → Traced ε φ β} {e : φ} :
    (x >>= f).result = .error e ↔
      x.result = .error e ∨ ∃ a, x.result = .ok a ∧ (f a).result = .error e := by
  cases h : x.result <;> simp [h, Except.bind]

/-- A loop over a list succeeds entry by entry. -/
theorem result_mapM_eq_ok {f : α → Traced ε φ β} {l : List α} {l' : List β} :
    (l.mapM f).result = .ok l' ↔ List.Forall₂ (fun a b => (f a).result = .ok b) l l' := by
  induction l generalizing l' with
  | nil => simp [eq_comm]
  | cons a l ih =>
      simp only [List.mapM_cons, result_bind_eq_ok, List.forall₂_cons_left_iff, ih, result_pure,
        Except.ok.injEq]
      constructor
      · rintro ⟨b, hb, l'', hl'', rfl⟩
        exact ⟨b, l'', hb, hl'', rfl⟩
      · rintro ⟨b, l'', hb, hl'', rfl⟩
        exact ⟨b, hb, l'', hl'', rfl⟩

theorem exists_mem_of_mapM {f : α → Traced ε φ β} {l : List α} {l' : List β} {a : α}
    (h : (l.mapM f).result = .ok l') (ha : a ∈ l) : ∃ b ∈ l', (f a).result = .ok b := by
  rw [result_mapM_eq_ok] at h
  induction h with
  | nil => cases ha
  | cons hfirst _ ih =>
      rcases List.mem_cons.1 ha with rfl | ha
      · exact ⟨_, List.mem_cons_self, hfirst⟩
      · obtain ⟨b, hb, hresult⟩ := ih ha
        exact ⟨b, List.mem_cons_of_mem _ hb, hresult⟩

theorem exists_of_mem_mapM {f : α → Traced ε φ β} {l : List α} {l' : List β} {b : β}
    (h : (l.mapM f).result = .ok l') (hb : b ∈ l') : ∃ a ∈ l, (f a).result = .ok b := by
  rw [result_mapM_eq_ok] at h
  induction h with
  | nil => cases hb
  | cons hfirst _ ih =>
      rcases List.mem_cons.1 hb with rfl | hb
      · exact ⟨_, List.mem_cons_self, hfirst⟩
      · obtain ⟨a, ha, hresult⟩ := ih hb
        exact ⟨a, List.mem_cons_of_mem _ ha, hresult⟩

end Traced

namespace Emission

/-- The node that an emission belongs to. -/
def owner : Emission ν κ → ν
  | .inline n _ => n
  | .own n _ => n

@[simp] theorem owner_inline (n : ν) (c : κ) : (Emission.inline n c).owner = n :=
  rfl

@[simp] theorem owner_own (n : ν) (cs : List κ) : (Emission.own n cs).owner = n :=
  rfl

end Emission

/-- The state once a node's own commands have entered the list. -/
def CompileState.complete (s : CompileState ν κ) (n : ν) (own : List κ) : CompileState ν κ :=
  { s.emit (.own n own) with added := n :: s.added }

/-- The state once a node's children are in hand. -/
def CompileState.expand (s : CompileState ν κ) (n : ν) : CompileState ν κ :=
  { s with expanded := n :: s.expanded }

namespace CompileState

@[simp] theorem added_emit (s : CompileState ν κ) (e : Emission ν κ) :
    (s.emit e).added = s.added :=
  rfl

@[simp] theorem expanded_emit (s : CompileState ν κ) (e : Emission ν κ) :
    (s.emit e).expanded = s.expanded :=
  rfl

@[simp] theorem emissions_emit (s : CompileState ν κ) (e : Emission ν κ) :
    (s.emit e).emissions = s.emissions ++ [e] :=
  rfl

@[simp] theorem added_complete (s : CompileState ν κ) (n : ν) (own : List κ) :
    (s.complete n own).added = n :: s.added :=
  rfl

@[simp] theorem expanded_complete (s : CompileState ν κ) (n : ν) (own : List κ) :
    (s.complete n own).expanded = s.expanded :=
  rfl

@[simp] theorem emissions_complete (s : CompileState ν κ) (n : ν) (own : List κ) :
    (s.complete n own).emissions = s.emissions ++ [.own n own] :=
  rfl

@[simp] theorem added_expand (s : CompileState ν κ) (n : ν) :
    (s.expand n).added = s.added :=
  rfl

@[simp] theorem expanded_expand (s : CompileState ν κ) (n : ν) :
    (s.expand n).expanded = n :: s.expanded :=
  rfl

@[simp] theorem emissions_expand (s : CompileState ν κ) (n : ν) :
    (s.expand n).emissions = s.emissions :=
  rfl

end CompileState

namespace RenderGraph

variable (g : RenderGraph ν κ) (nested : Nested ν κ) (isolated : List ν)

/-- The first node names the second among its requirements. -/
def Requires (n m : ν) : Prop :=
  Requirement.node m ∈ g.requirements isolated n

/-- The nodes that are resolved on behalf of a root: itself, and the children of each. -/
inductive Resolved (root : ν) : ν → Prop
  | root : Resolved root root
  | child {n m : ν} (hn : Resolved root n) (hm : m ∈ g.children isolated n) : Resolved root m

/-- The nodes that the list of a root holds: the resolved ones, and what each of them
requires. -/
inductive Visited (root : ν) : ν → Prop
  | resolved {n : ν} (hn : g.Resolved isolated root n) : Visited root n
  | required {n m : ν} (hn : Visited root n) (hm : g.Requires isolated n m) : Visited root m

/-- A node's own commands, once its embedded lists are made. -/
def Contributes (n : ν) (own : List κ) : Prop :=
  ((g.contributions isolated n).mapM (g.contribute nested isolated)).result = .ok own

/-- What a part of a compile is to do. -/
inductive Task (ν κ : Type) where
  | require (n : ν)
  /-- Goes through what is left of a waiting node's requirements. -/
  | gather (n : ν) (rs : List (Requirement ν κ))
  | resolve (n : ν)
  | resolveAll (ns : List ν)

/-- How a part of a compile succeeds, from one state to another, while some nodes wait. -/
inductive Search : List ν → Task ν κ → CompileState ν κ → CompileState ν κ → Prop
  | present {pending s n} (hadded : n ∈ s.added) : Search pending (.require n) s s
  | fresh {pending s t n own} (hadded : n ∉ s.added) (hpending : n ∉ pending)
      (hnodes : n ∈ g.nodes)
      (hgather : Search (pending ++ [n]) (.gather n (g.requirements isolated n)) s t)
      (hown : g.Contributes nested isolated n own) :
      Search pending (.require n) s (t.complete n own)
  | gathered {pending s n} : Search pending (.gather n []) s s
  | gap {pending s t n rs} (hrest : Search pending (.gather n rs) s t) :
      Search pending (.gather n (.gap :: rs)) s t
  | inline {pending s t n c rs} (hrest : Search pending (.gather n rs) (s.emit (.inline n c)) t) :
      Search pending (.gather n (.command c :: rs)) s t
  | upstream {pending s t u n m rs} (hrequire : Search pending (.require m) s t)
      (hrest : Search pending (.gather n rs) t u) :
      Search pending (.gather n (.node m :: rs)) s u
  | inHand {s t n} (hrequire : Search [] (.require n) s t) (hexpanded : n ∈ t.expanded) :
      Search [] (.resolve n) s t
  | expand {s t u n} (hrequire : Search [] (.require n) s t) (hexpanded : n ∉ t.expanded)
      (hchildren : Search [] (.resolveAll (g.children isolated n)) (t.expand n) u) :
      Search [] (.resolve n) s u
  | resolvedAll {s} : Search [] (.resolveAll []) s s
  | child {s t u n ns} (hresolve : Search [] (.resolve n) s t)
      (hrest : Search [] (.resolveAll ns) t u) : Search [] (.resolveAll (n :: ns)) s u

variable {g nested isolated}

/-- Going through no requirements changes nothing. -/
theorem Search.eq_of_gather_nil {pending : List ν} {n : ν} {s t : CompileState ν κ}
    (h : g.Search nested isolated pending (.gather n []) s t) : s = t := by
  cases h
  rfl

theorem add_eq_ok {s t : CompileState ν κ} {n : ν} :
    (g.add nested isolated s n).result = .ok t ↔
      ∃ own, g.Contributes nested isolated n own ∧ s.complete n own = t := by
  have hreport : ∀ own : List κ,
      ((if !own.isEmpty then Traced.report (.contributed n own) else pure ()) :
        Compiling ν κ Unit).result = .ok () := by
    intro own
    split <;> rfl
  simp only [add, Traced.result_bind_eq_ok, Contributes, CompileState.complete]
  constructor
  · rintro ⟨own, hown, hrest⟩
    refine ⟨own, hown, ?_⟩
    split at hrest <;> simpa [Except.map] using hrest
  · rintro ⟨own, hown, rfl⟩
    refine ⟨own, hown, ?_⟩
    split <;> simp [Except.map]

/-- Going through requirements leaves a derivation if requiring a node does. -/
theorem search_of_gather {pending : List ν} {n : ν} {rs : List (Requirement ν κ)}
    {s t : CompileState ν κ}
    {require : CompileState ν κ → ν → Compiling ν κ (CompileState ν κ)}
    (hrequire : ∀ s m t, (require s m).result = .ok t →
      g.Search nested isolated pending (.require m) s t)
    (h : (rs.foldlM (meet require n) s).result = .ok t) :
    g.Search nested isolated pending (.gather n rs) s t := by
  induction rs generalizing s with
  | nil =>
      obtain rfl : s = t := by simpa using h
      exact .gathered
  | cons r rs ih =>
      rw [List.foldlM_cons, Traced.result_bind_eq_ok] at h
      obtain ⟨u, hentry, hrest⟩ := h
      cases r with
      | gap =>
          obtain rfl : s = u := by simpa [meet] using hentry
          exact .gap (ih hrest)
      | command c =>
          obtain rfl : s.emit (.inline n c) = u := by simpa [meet] using hentry
          exact .inline (ih hrest)
      | node m => exact .upstream (hrequire s m u hentry) (ih hrest)

theorem search_of_require [DecidableEq ν] {root : ν} {depth : Nat} {pending : List ν}
    {s t : CompileState ν κ} {n : ν}
    (h : (g.require nested isolated root depth pending s n).result = .ok t) :
    g.Search nested isolated pending (.require n) s t := by
  induction depth generalizing pending s t n with
  | zero => simp [require] at h
  | succ depth ih =>
      rw [require] at h
      by_cases hadded : n ∈ s.added
      · obtain rfl : s = t := by simpa [hadded] using h
        exact .present hadded
      by_cases hpending : n ∈ pending
      · simp [hadded, hpending, Except.bind] at h
      by_cases hnodes : n ∈ g.nodes
      · rw [if_neg hadded, if_neg hpending, if_pos hnodes, Traced.result_bind_eq_ok] at h
        obtain ⟨u, hgather, hadd⟩ := h
        obtain ⟨own, hown, rfl⟩ := add_eq_ok.1 hadd
        exact .fresh hadded hpending hnodes (search_of_gather (fun _ _ _ => ih) hgather) hown
      · simp [hadded, hpending, hnodes] at h

theorem search_of_resolveAll {ns : List ν} {s t : CompileState ν κ}
    {resolve : CompileState ν κ → ν → Compiling ν κ (CompileState ν κ)}
    (hresolve : ∀ s n t, (resolve s n).result = .ok t →
      g.Search nested isolated [] (.resolve n) s t)
    (h : (ns.foldlM resolve s).result = .ok t) :
    g.Search nested isolated [] (.resolveAll ns) s t := by
  induction ns generalizing s with
  | nil =>
      obtain rfl : s = t := by simpa using h
      exact .resolvedAll
  | cons n ns ih =>
      rw [List.foldlM_cons, Traced.result_bind_eq_ok] at h
      obtain ⟨u, hn, hns⟩ := h
      exact .child (hresolve s n u hn) (ih hns)

theorem search_of_resolve [DecidableEq ν] {root : ν} {depth : Nat} {s t : CompileState ν κ} {n : ν}
    (h : (g.resolve nested isolated root depth s n).result = .ok t) :
    g.Search nested isolated [] (.resolve n) s t := by
  induction depth generalizing s t n with
  | zero => simp [resolve] at h
  | succ depth ih =>
      rw [resolve, Traced.result_bind_eq_ok] at h
      obtain ⟨u, hrequire, hrest⟩ := h
      by_cases hexpanded : n ∈ u.expanded
      · obtain rfl : u = t := by simpa [hexpanded] using hrest
        exact .inHand (search_of_require hrequire) hexpanded
      · rw [if_neg hexpanded] at hrest
        exact .expand (search_of_require hrequire) hexpanded
          (search_of_resolveAll (fun _ _ _ => ih) hrest)

end RenderGraph

end SceneGraph
