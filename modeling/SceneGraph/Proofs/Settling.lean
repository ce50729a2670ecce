import SceneGraph.Proofs.Execution

/-!
Executing what a search appends.

While a search goes on, the equations of all nodes in the list hold, and the matrices of a
waiting container are as far as its requirements have been gone through.  Nothing is read
before it is complete, and nothing that was read is written again.
-/

namespace SceneGraph

open RenderGraph (Nested Task waits_append waits_complete)

/-- The nodes that a task is about. -/
def RenderGraph.Task.Names {ν κ : Type} (k : ν) : Task ν κ → Prop
  | .require n | .resolve n => k = n
  | .gather _ rs => .node k ∈ rs
  | .resolveAll ns => k ∈ ns

/-- The waiting node of a task may still emit commands of its own. -/
def RenderGraph.Task.Inlines {ν κ : Type} (k : ν) : Task ν κ → Prop
  | .gather n rs => k = n ∧ ∃ c, .command c ∈ rs
  | _ => False

namespace Scene

variable {w r r' : Scene} {nested : Nested NodeId Command} {isolated pending : List NodeId}
  {task : Task NodeId Command} {s t : CompileState NodeId Command} {x m owner : NodeId}

theorem Moves.unique (h : w.Moves x owner) {owner' : NodeId} (h' : w.Moves x owner') :
    owner = owner' := by
  obtain ⟨motion, amount, hx⟩ := h
  obtain ⟨motion', amount', hx'⟩ := h'
  exact congrArg Transformation.owner (Node.transformation.inj (node_unique hx hx'))

theorem Still.not_moves (h : w.Still x) : ¬ w.Moves x owner := by
  rintro ⟨motion, amount, hx⟩
  exact h _ hx

/-- Whatever needs an extra motion is its container. -/
theorem eq_of_needs_moves (hw : w.WellFormed) {n : Node} (hx : w.node x = .ok n)
    (hm : .node m ∈ needs [] x n) (hmoves : w.Moves m owner) : owner = x := by
  rcases still_or_moves hw hx hm with hstill | hmoves'
  · exact absurd hmoves hstill.not_moves
  · exact hmoves.unique hmoves'

theorem node_of_mem_graph (hx : x ∈ w.graph.nodes) : ∃ n, w.node x = .ok n :=
  node_of_lt_count (List.mem_range.mp hx)

/-- No extra motion is a child. -/
theorem still_of_child (hw : w.WellFormed) (hm : m ∈ w.graph.children isolated x) :
    w.Still m := by
  have hplaced : ¬ NodeKind.IsPlaced .transformation := by
    simp [NodeKind.IsPlaced, NodeKind.IsContainer]
  have hm : m ∈ (w.nodes[x]?.map (resolvedAfter isolated x)).getD [] := hm
  cases hx : w.nodes[x]? with
  | none => simp [hx] at hm
  | some n =>
      rw [hx, Option.map_some, Option.getD_some, mem_resolvedAfter] at hm
      have hfits := hw.fits x n (node_eq_ok.mpr hx)
      cases n with
      | part p | pinnedPart p => exact HasKind.still (hfits.1.children m hm.2) hplaced
      | _ => cases hm.2

/-- A search brings in an extra motion only on behalf of its container, unless it is told
to. -/
theorem movers (hw : w.WellFormed) (h : w.graph.Search nested isolated pending task s t) :
    ∀ x ∈ t.added, x ∉ s.added → ∀ owner, w.Moves x owner →
      task.Names x ∨ owner ∈ t.added := by
  induction h with
  | present | gathered | resolvedAll => exact fun x hx hnew => absurd hx hnew
  | @fresh pending s t n own hadded hpending hnodes hgather hown ih =>
      intro x hx hnew owner hmoves
      rcases List.mem_cons.mp hx with rfl | hx
      · exact Or.inl rfl
      obtain ⟨k, hk⟩ := node_of_mem_graph hnodes
      refine Or.inr ?_
      rcases ih x hx hnew owner hmoves with hneeds | howner
      · have hneeds : .node x ∈ w.graph.requirements isolated n := hneeds
        rw [requirements_of_node hk] at hneeds
        rw [eq_of_needs_moves hw hk (mem_needs hneeds) hmoves]
        exact List.mem_cons_self
      · exact List.mem_cons_of_mem n howner
  | gap _ ih | inline _ ih =>
      exact fun x hx hnew owner hmoves =>
        (ih x hx hnew owner hmoves).imp_left fun hnames => List.mem_cons_of_mem _ hnames
  | @upstream pending s t u n m rs hrequire hrest ihm ihrest =>
      intro x hx hnew owner hmoves
      by_cases hxt : x ∈ t.added
      · rcases ihm x hxt hnew owner hmoves with rfl | howner
        · exact Or.inl List.mem_cons_self
        · exact Or.inr (hrest.added_subset howner)
      · exact (ihrest x hx hxt owner hmoves).imp_left fun hnames => List.mem_cons_of_mem _ hnames
  | inHand _ _ ih => exact ih
  | @expand s t u n hrequire _ hchildren ihn ihchildren =>
      intro x hx hnew owner hmoves
      by_cases hxt : x ∈ t.added
      · exact (ihn x hxt hnew owner hmoves).imp_right fun howner => hchildren.added_subset howner
      · refine Or.inr ((ihchildren x hx hxt owner hmoves).resolve_left fun hchild => ?_)
        exact (still_of_child hw hchild).not_moves hmoves
  | @child s t u n ns hresolve hrest ihn ihrest =>
      intro x hx hnew owner hmoves
      by_cases hxt : x ∈ t.added
      · rcases ihn x hxt hnew owner hmoves with rfl | howner
        · exact Or.inl List.mem_cons_self
        · exact Or.inr (hrest.added_subset howner)
      · exact (ihrest x hx hxt owner hmoves).imp_left fun hnames => List.mem_cons_of_mem _ hnames

/-- When a node that waited enters the list, the containers of all extra motions in the list go
on being in the list or waiting. -/
theorem owned_complete {added : List NodeId}
    (h : ∀ y ∈ added, ∀ owner, w.Moves y owner → owner ∈ added ∨ owner ∈ pending ++ [x])
    (hx : ∀ owner, w.Moves x owner → owner ∈ pending) :
    ∀ y ∈ x :: added, ∀ owner, w.Moves y owner → owner ∈ x :: added ∨ owner ∈ pending := by
  intro y hy owner hmoves
  rcases List.mem_cons.mp hy with rfl | hy
  · exact Or.inr (hx owner hmoves)
  rcases h y hy owner hmoves with howner | howner
  · exact Or.inl (List.mem_cons_of_mem x howner)
  rcases List.mem_append.mp howner with howner | howner
  · exact Or.inr howner
  · obtain rfl := List.mem_singleton.mp howner
    exact Or.inl List.mem_cons_self

/-- The state of a compile, and a scene on which what is in the list was executed. -/
structure Underway (w : Scene) (pending : List NodeId) (s : CompileState NodeId Command)
    (r : Scene) : Prop where
  wiring : r.wiring = w.wiring
  closed : w.Closed (· ∈ s.added)
  waits : ∀ p ∈ pending, p ∉ s.added
  /-- An extra motion is in the list only if its container is or waits. -/
  owned : ∀ x ∈ s.added, ∀ owner, w.Moves x owner → owner ∈ s.added ∨ owner ∈ pending
  satisfied : ∀ x ∈ s.added, ∀ n, w.node x = .ok n → r.Satisfied x n

/-- A task that may come up: an extra motion is required by its waiting container only. -/
def Suits (w : Scene) (pending : List NodeId) : Task NodeId Command → Prop
  | .require m => ∀ owner, w.Moves m owner → owner ∈ pending
  | .gather n rs => n ∈ pending ∧ ∃ k done, w.node n = .ok k ∧ needs [] n k = done ++ rs
  | .resolve n => w.Still n
  | .resolveAll ns => ∀ n ∈ ns, w.Still n

/-- How much of a waiting node's requirements was gone through. -/
structure Gone (w : Scene) (n : NodeId) (done : List Need) (s : CompileState NodeId Command)
    (r : Scene) : Prop where
  present : ∀ e ∈ done, ∀ x ∈ reads e, x ∈ s.added
  moves : ∀ x ∈ s.added, w.Moves x n → .node x ∈ done
  drawn : r.Drawn n (done.foldl r.bring {})

/-- What a task means for the matrices of a waiting container. -/
def Brings (w : Scene) (pending : List NodeId) (s t : CompileState NodeId Command)
    (r r' : Scene) : Task NodeId Command → Prop
  | .require m => m ∉ s.added → ∀ owner ∈ pending, w.Moves m owner → ∀ known,
      r.Drawn owner known → r'.Drawn owner (r'.bring known (.node m))
  | .gather n rs => ∀ k, w.node n = .ok k → ∀ done, needs [] n k = done ++ rs →
      w.Gone n done s r → w.Gone n (done ++ rs) t r'
  | _ => True

/-- The nodes that act while a search goes on. -/
def Acting (task : Task NodeId Command) (s t : CompileState NodeId Command) (x : NodeId) :
    Prop :=
  (x ∈ t.added ∧ x ∉ s.added) ∨ task.Inlines x

/-- What a search appends can be executed, and keeps everything in order. -/
def Executes (w : Scene) (pending : List NodeId) (task : Task NodeId Command)
    (s t : CompileState NodeId Command) (r : Scene) : Prop :=
  ∃ new r', t.emissions = s.emissions ++ new ∧ Leads (new.flatMap Emission.commands) r r' ∧
    w.Underway pending t r' ∧ Touches w (Acting task s t) r r' ∧ w.Brings pending s t r r' task

/-- What acts later on in a search acts in the search as a whole. -/
theorem Acting.head {u : CompileState NodeId Command} {task' : Task NodeId Command}
    (htu : t.added ⊆ u.added) (hinlines : task'.Inlines x → task.Inlines x)
    (hx : Acting task' s t x) : Acting task s u x :=
  hx.imp (fun h => ⟨htu h.1, h.2⟩) hinlines

theorem Acting.tail {u : CompileState NodeId Command} {task' : Task NodeId Command}
    (hst : s.added ⊆ t.added) (hinlines : task'.Inlines x → task.Inlines x)
    (hx : Acting task' t u x) : Acting task s u x :=
  hx.imp (fun h => ⟨h.1, fun hmem => h.2 (hst hmem)⟩) hinlines

theorem inlines_tail {n : NodeId} {e : Need} {rs : List Need}
    (h : (Task.gather n rs).Inlines x) : (Task.gather n (e :: rs)).Inlines x :=
  ⟨h.1, h.2.imp fun _ => List.mem_cons_of_mem e⟩

/-- Where nothing is appended there is nothing to execute. -/
theorem Executes.nothing (hu : w.Underway pending s r) (h : w.Brings pending s s r r task) :
    w.Executes pending task s s r :=
  ⟨[], r, by simp, leads_nil r, hu, .refl w _ r, h⟩

/-- What two searches in sequence append is executed in sequence. -/
theorem Executes.andThen {u : CompileState NodeId Command} {task₁ task₂ : Task NodeId Command}
    (h₁ : w.Executes pending task₁ s t r)
    (h₂ : ∀ r₁, w.Underway pending t r₁ → w.Executes pending task₂ t u r₁)
    (hst : s.added ⊆ t.added) (htu : t.added ⊆ u.added)
    (hinlines₁ : ∀ {x}, task₁.Inlines x → task.Inlines x)
    (hinlines₂ : ∀ {x}, task₂.Inlines x → task.Inlines x)
    (hbrings : ∀ r₁ r', w.Underway pending t r₁ → Touches w (Acting task₁ s t) r r₁ →
      w.Brings pending s t r r₁ task₁ → w.Brings pending t u r₁ r' task₂ →
        w.Brings pending s u r r' task) :
    w.Executes pending task s u r := by
  obtain ⟨new₁, r₁, hnew₁, hleads₁, hu₁, htouches₁, hbrings₁⟩ := h₁
  obtain ⟨new₂, r₂, hnew₂, hleads₂, hu₂, htouches₂, hbrings₂⟩ := h₂ r₁ hu₁
  refine ⟨new₁ ++ new₂, r₂, by simp [hnew₂, hnew₁], ?_, hu₂, ?_, ?_⟩
  · rw [List.flatMap_append]
    exact hleads₁.append hleads₂
  · refine (htouches₁.mono fun x hx => ?_).trans (htouches₂.mono fun x hx => ?_)
    · exact hx.head htu hinlines₁
    · exact hx.tail hst hinlines₂
  · exact hbrings r₁ r₂ hu₁ htouches₁ hbrings₁ hbrings₂

/-- One more node waits. -/
theorem Underway.wait (hu : w.Underway pending s r) {n : NodeId} (hadded : n ∉ s.added) :
    w.Underway (pending ++ [n]) s r where
  wiring := hu.wiring
  closed := hu.closed
  waits := waits_append hu.waits hadded
  owned x hx owner hmoves := (hu.owned x hx owner hmoves).imp_right (List.mem_append_left _)
  satisfied := hu.satisfied

section

variable (hw : w.WellFormed)
include hw

/-- Whatever acts, what is in the list stays in order. -/
theorem Underway.keeps (hu : w.Underway pending s r) {acting : NodeId → Prop}
    (h : Touches w acting r r') (hacting : ∀ x, acting x → x ∉ s.added) :
    Keeps w (· ∈ s.added) r r' :=
  hu.closed.keeps hw h hacting

/-- A waiting node emits a command. -/
theorem Underway.emit (hu : w.Underway pending s r) {n : NodeId} (hn : n ∈ pending)
    (h : Touches w (· = n) r r') (e : Emission NodeId Command) :
    w.Underway pending (s.emit e) r' where
  wiring := h.wiring.trans hu.wiring
  closed := hu.closed
  waits := hu.waits
  owned := hu.owned
  satisfied x hx k hk := by
    have hkeeps := hu.keeps hw h (by rintro _ rfl; exact hu.waits _ hn)
    exact hkeeps.satisfied hw hu.wiring hu.closed hx hk (hu.satisfied x hx k hk)

/-- A node that waited enters the list. -/
theorem Underway.complete {n : NodeId} {k : Node} (hu : w.Underway (pending ++ [n]) t r)
    (hk : w.node n = .ok k) (hready : Ready (· ∈ t.added) n k) (hpending : n ∉ pending)
    (hsuits : w.Suits pending (.require n)) (h : Completes w n k r r') (own : List Command) :
    w.Underway pending (t.complete n own) r' where
  wiring := h.touches.wiring.trans hu.wiring
  closed x k' hx hk' m hm := by
    refine List.mem_cons_of_mem n ?_
    rcases List.mem_cons.mp hx with rfl | hx
    · obtain rfl := node_unique hk hk'
      exact hready m hm
    · exact hu.closed x k' hx hk' m hm
  waits := waits_complete hu.waits hpending own
  owned := owned_complete hu.owned hsuits
  satisfied x hx k' hk' := by
    rcases List.mem_cons.mp hx with rfl | hx
    · obtain rfl := node_unique hk hk'
      exact h.satisfied
    · have hn := hu.waits n (by simp)
      have hkeeps := hu.keeps hw h.touches (by rintro _ rfl; exact hn)
      exact hkeeps.satisfied hw hu.wiring hu.closed hx hk' (hu.satisfied x hx k' hk')

/-- A waiting container executes the next command among its requirements. -/
theorem Gone.command (hu : w.Underway pending s r) {n : NodeId} (hn : n ∈ pending) {k : Node}
    {done rs : List Need} {step : Step}
    (hneeds : needs [] n k = done ++ .command (.step step) :: rs) (hstep : Emits w n step)
    (h : step.change r = .ok r') (hgone : w.Gone n done s r) (e : Emission NodeId Command) :
    w.Gone n (done ++ [.command (.step step)]) (s.emit e) r' := by
  have hkeeps := hu.keeps hw (hstep.touches hw hu.wiring h) (by rintro _ rfl; exact hu.waits _ hn)
  have hreads : ∀ x ∈ reads (.command (.step step)), x ∈ s.added := by
    intro x hx
    have horderly := hneeds ▸ orderly_needs n k
    have hmem : x ∈ [] ++ Requirement.nodes done ++ [] := reads_mem_of_orderly horderly x hx
    have hmem : .node x ∈ done := by simpa using hmem
    exact hgone.present _ hmem x (by simp [reads])
  refine ⟨fun e' he' => ?_, fun x hx hmoves => List.mem_append_left _ (hgone.moves x hx hmoves), ?_⟩
  · rcases List.mem_append.mp he' with he' | he'
    · exact hgone.present e' he'
    · obtain rfl : e' = .command (.step step) := by simpa using he'
      exact hreads
  · rw [List.foldl_append, hkeeps.foldl_bring_eq hu.wiring hu.closed hgone.present,
      List.foldl_cons, List.foldl_nil, hkeeps.bring_eq hu.wiring hu.closed hreads]
    exact hstep.drawn hw hu.wiring h hgone.drawn

/-- A waiting container gets the next node that it needs. -/
theorem Gone.node (hu : w.Underway pending s r) (hu' : w.Underway pending t r')
    (hsearch : w.graph.Search nested [] pending (.require m) s t)
    (htouches : Touches w (Acting (.require m) s t) r r')
    (hbrings : w.Brings pending s t r r' (.require m)) {n : NodeId} (hn : n ∈ pending) {k : Node}
    (hk : w.node n = .ok k) {done rs : List Need}
    (hneeds : needs [] n k = done ++ .node m :: rs) (hgone : w.Gone n done s r) :
    w.Gone n (done ++ [.node m]) t r' := by
  have hwaits := hu'.waits n hn
  have hkeeps := hu.keeps hw htouches fun x hx => by
    exact hx.elim (fun h => h.2) (fun h => h.elim)
  -- Nothing but the node itself can have moved the container in the meantime.
  have hmover : ∀ x ∈ t.added, x ∉ s.added → w.Moves x n → x = m := fun x hx hnew hmoves =>
    (movers hw hsearch x hx hnew n hmoves).resolve_right hwaits
  refine ⟨fun e he x hx => ?_, fun x hx hmoves => ?_, ?_⟩
  · rcases List.mem_append.mp he with he | he
    · exact hsearch.added_subset (hgone.present e he x hx)
    · obtain rfl : e = .node m := by simpa using he
      obtain rfl : x = m := by simpa [reads] using hx
      exact hsearch.achieved
  · by_cases hold : x ∈ s.added
    · exact List.mem_append_left _ (hgone.moves x hold hmoves)
    · simp [hmover x hx hold hmoves]
  · rw [List.foldl_append, hkeeps.foldl_bring_eq hu.wiring hu.closed hgone.present,
      List.foldl_cons, List.foldl_nil]
    have hmem : .node m ∈ needs [] n k := by simp [hneeds]
    rcases still_or_moves hw hk hmem with hstill | hmoves
    · rw [bring_node_of_still hu'.wiring hstill]
      refine hgone.drawn.of_container? (htouches.containers n ?_ ?_)
      · exact fun hx => hx.elim (fun h => hwaits h.1) (fun h => h.elim)
      · rintro x (⟨hx, hnew⟩ | hx) hmoves
        · exact (hmover x hx hnew hmoves ▸ hstill).not_moves hmoves
        · exact hx
    · refine hbrings (fun hmem => ?_) n hn hmoves _ hgone.drawn
      exact not_mem_of_moves hw hk hneeds hmoves (hgone.moves m hmem hmoves)

end

/-- A waiting container skips what is not there. -/
theorem Gone.gap {n : NodeId} {done : List Need} (hgone : w.Gone n done s r) :
    w.Gone n (done ++ [.gap]) s r := by
  refine ⟨fun e he => ?_, fun x hx hmoves => List.mem_append_left _ (hgone.moves x hx hmoves), ?_⟩
  · rcases List.mem_append.mp he with he | he
    · exact hgone.present e he
    · obtain rfl : e = .gap := by simpa using he
      simp [reads]
  · rw [List.foldl_append]
    exact hgone.drawn

/-- Nothing was gone through when a node begins to wait. -/
theorem Underway.gone_nil (hu : w.Underway pending s r) {n : NodeId} (hadded : n ∉ s.added)
    (hpending : n ∉ pending) : w.Gone n [] s r := by
  refine ⟨by simp, fun x hx hmoves => ?_, fun c _ => Matrices.describes_empty c⟩
  rcases hu.owned x hx n hmoves with hn | hn
  · exact absurd hn hadded
  · exact absurd hn hpending

/-- While an extra motion gathers what it needs, its container is left alone. -/
theorem container?_of_gather (hw : w.WellFormed) {n : NodeId} {k : Node}
    (hk : w.node n = .ok k) (hmoves : w.Moves n owner)
    (hgather : w.graph.Search nested [] pending (.gather n (needs [] n k)) s t)
    (howner : owner ≠ n) (hwaits : owner ∉ t.added)
    (htouches : Touches w (Acting (.gather n (needs [] n k)) s t) r r') :
    r'.container? owner = r.container? owner := by
  refine htouches.containers owner ?_ ?_
  · rintro (⟨hx, -⟩ | ⟨hx, -⟩)
    · exact hwaits hx
    · exact howner hx
  · rintro x (⟨hx, hnew⟩ | ⟨rfl, c, hc⟩) hmoves'
    · rcases movers hw hgather x hx hnew owner hmoves' with hneeds | hadded
      · exact howner (eq_of_needs_moves hw hk hneeds hmoves')
      · exact hwaits hadded
    · obtain ⟨motion, amount, hstep⟩ := hmoves
      obtain rfl := node_unique hk hstep
      simp [needs] at hc

/-- Executing what a search appends: it can be done, and in the end the equations of all nodes
in the list hold. -/
theorem executes (hw : w.WellFormed) (h : w.graph.Search nested [] pending task s t)
    (hplain : ∀ x ∈ t.added, ∀ n, w.node x = .ok n → n.model? = none)
    (hsuits : w.Suits pending task) (hu : w.Underway pending s r) :
    w.Executes pending task s t r := by
  induction h generalizing r with
  | present hadded => exact .nothing hu fun hnew => absurd hadded hnew
  | @fresh pending s t n own hadded hpending hnodes hgather hown ih =>
      obtain ⟨k, hk⟩ := node_of_mem_graph hnodes
      rw [requirements_of_node hk] at hgather ih
      obtain ⟨new, r₁, hnew, hleads, hu₁, htouches, hbrings⟩ :=
        ih (fun x hx => hplain x (List.mem_cons_of_mem n hx)) ⟨by simp, k, [], hk, rfl⟩
          (hu.wait hadded)
      have hready : Ready (· ∈ t.added) n k := fun m hm =>
        hgather.achieved m (RenderGraph.mem_nodes.mpr hm)
      have hgone := hbrings k hk [] rfl (hu.gone_nil hadded hpending)
      obtain ⟨r₂, hleads₂, hcompletes⟩ := completes hw hu₁.wiring hu₁.closed hu₁.satisfied hk
        hready (hu₁.waits n (by simp)) hgone.drawn
      obtain rfl := contributes_steps hk (hplain n List.mem_cons_self k hk) hown
      refine ⟨new ++ [.own n ((k.steps n).map .step)], r₂, by simp [hnew], ?_,
        hu₁.complete hw hk hready hpending hsuits hcompletes _, ?_, ?_⟩
      · rw [List.flatMap_append]
        exact hleads.append (by simpa [Emission.commands] using hleads₂)
      · refine (htouches.mono ?_).trans (hcompletes.touches.mono ?_)
        · rintro x (⟨hx, hfresh⟩ | ⟨rfl, -⟩)
          · exact Or.inl ⟨List.mem_cons_of_mem n hx, hfresh⟩
          · exact Or.inl ⟨List.mem_cons_self, hadded⟩
        · rintro x rfl
          exact Or.inl ⟨List.mem_cons_self, hadded⟩
      · intro _ owner howner hmoves known hd
        refine hcompletes.moves owner hmoves known (hd.of_container? ?_)
        exact container?_of_gather hw hk hmoves hgather (fun heq => hpending (heq ▸ howner))
          (hu₁.waits owner (List.mem_append_left _ howner)) htouches
  | gathered =>
      refine .nothing hu fun k _ done _ hgone => ?_
      rwa [List.append_nil]
  | @gap pending s t n rs hrest ih =>
      obtain ⟨hn, k, done, hk, hneeds⟩ := hsuits
      obtain ⟨new, r', hnew, hleads, hu', htouches, hbrings⟩ :=
        ih hplain ⟨hn, k, done ++ [.gap], hk, by simp [hneeds]⟩ hu
      refine ⟨new, r', hnew, hleads, hu', htouches.mono fun x hx => hx.imp_right inlines_tail, ?_⟩
      intro k hk done hneeds hgone
      rw [List.append_cons]
      exact hbrings k hk (done ++ [.gap]) (by simp [hneeds]) hgone.gap
  | @inline pending s t n c rs hrest ih =>
      obtain ⟨hn, k, done, hk, hneeds⟩ := hsuits
      obtain ⟨step, rfl, hstep⟩ := emits_of_needs hk (c := c) (by simp [hneeds])
      obtain ⟨r₁, hr₁⟩ := hstep.succeeds hw hu.wiring
      have htouches₁ := hstep.touches hw hu.wiring hr₁
      obtain ⟨new, r', hnew, hleads, hu', htouches, hbrings⟩ :=
        ih hplain ⟨hn, k, done ++ [.command (.step step)], hk, by simp [hneeds]⟩
          (hu.emit hw hn htouches₁ (.inline n (.step step)))
      refine ⟨.inline n (.step step) :: new, r', by simp [hnew], ?_, hu', ?_, ?_⟩
      · rw [List.flatMap_cons]
        exact (hstep.leads hu.wiring hr₁).append hleads
      · refine (htouches₁.mono ?_).trans (htouches.mono fun x hx => hx.imp_right inlines_tail)
        rintro x rfl
        exact Or.inr ⟨rfl, _, List.mem_cons_self⟩
      · intro k hk done hneeds hgone
        have hgone₁ := hgone.command hw hu hn hneeds hstep hr₁ (.inline n (.step step))
        rw [List.append_cons]
        exact hbrings k hk (done ++ [.command (.step step)]) (by simp [hneeds]) hgone₁
  | @upstream pending s t u n m rs hrequire hrest ihm ihrest =>
      obtain ⟨hn, k, done, hk, hneeds⟩ := hsuits
      have hsuits₁ : w.Suits pending (.require m) := by
        intro owner hmoves
        have hm : .node m ∈ needs [] n k := by simp [hneeds]
        exact eq_of_needs_moves hw hk hm hmoves ▸ hn
      have hsuits₂ : w.Suits pending (.gather n rs) :=
        ⟨hn, k, done ++ [.node m], hk, by simp [hneeds]⟩
      refine (ihm (fun x hx => hplain x (hrest.added_subset hx)) hsuits₁ hu).andThen
        (fun r₁ => ihrest hplain hsuits₂) hrequire.added_subset hrest.added_subset
        False.elim inlines_tail ?_
      intro r₁ r' hu₁ htouches hbrings hbrings' k hk done hneeds hgone
      have hgone₁ := hgone.node hw hu hu₁ hrequire htouches hbrings hn hk hneeds
      rw [List.append_cons]
      exact hbrings' k hk (done ++ [.node m]) (by simp [hneeds]) hgone₁
  | inHand hrequire hexpanded ih =>
      obtain ⟨new, r', hnew, hleads, hu', htouches, -⟩ :=
        ih hplain (fun owner hmoves => absurd hmoves hsuits.not_moves) hu
      exact ⟨new, r', hnew, hleads, hu', htouches, trivial⟩
  | @expand s t u n hrequire _ hchildren ihn ihchildren =>
      have hsuits₁ : w.Suits [] (.require n) := fun owner hmoves => absurd hmoves hsuits.not_moves
      have hexecutes := ihn (fun x hx => hplain x (hchildren.added_subset hx)) hsuits₁ hu
      have hrest : ∀ r₁, w.Underway [] t r₁ →
          w.Executes [] (.resolveAll (w.graph.children [] n)) t u r₁ := fun r₁ hu₁ =>
        ihchildren hplain (fun m hm => still_of_child hw hm)
          ⟨hu₁.wiring, hu₁.closed, hu₁.waits, hu₁.owned, hu₁.satisfied⟩
      exact hexecutes.andThen hrest hrequire.added_subset hchildren.added_subset
        False.elim False.elim fun _ _ _ _ _ _ => trivial
  | resolvedAll => exact .nothing hu trivial
  | @child s t u n ns hresolve hrest ihn ihrest =>
      have hexecutes := ihn (fun x hx => hplain x (hrest.added_subset hx))
        (hsuits n List.mem_cons_self) hu
      exact hexecutes.andThen
        (fun r₁ => ihrest hplain fun m hm => hsuits m (List.mem_cons_of_mem n hm))
        hresolve.added_subset hrest.added_subset False.elim False.elim fun _ _ _ _ _ _ => trivial

end Scene

end SceneGraph
