import SceneGraph.Proofs.Agreement

/-!
Lists that are replayed while nodes wait.

A list within a list visits nodes anew, those that wait in the lists around it included.  Such a
node is put together and shown, and later once more.  This does no harm as long as no container
is visited while the nodes are gathered that its own extra motions need: then whatever is done
agrees with the solution of the equations all the time.
-/

namespace SceneGraph

open Relation
open RenderGraph (Task)

namespace Scene

variable {w z t u t' : Scene} {x m : NodeId} {n : Node} {isolated : List NodeId}
  {task task' : Task NodeId Command}
  {done done' done'' mid mid' drawn drawn' placed placed' : NodeId → Prop}

/-- What happened to the containers of a scene between two moments: apart from some of them, only
what is done and not being put together has changed. -/
structure Evolves (mid drawn placed done done' : NodeId → Prop) (t t' : Scene) : Prop where
  grows : ∀ q, done q → done' q
  spares : ∀ q, mid q → done' q → done q
  containers : ∀ q, (done' q → mid q) → ¬ drawn q → t'.container? q = t.container? q
  contents : ∀ q, (done' q → mid q) → ¬ placed q → t'.content? q = t.content? q

namespace Evolves

theorem refl (mid drawn placed done : NodeId → Prop) (t : Scene) :
    Evolves mid drawn placed done done t t :=
  ⟨fun _ h => h, fun _ _ h => h, fun _ _ _ => rfl, fun _ _ _ => rfl⟩

theorem trans (h : Evolves mid drawn placed done done' t u)
    (h' : Evolves mid drawn placed done' done'' u t') :
    Evolves mid drawn placed done done'' t t' where
  grows q hq := h'.grows q (h.grows q hq)
  spares q hmid hq := h.spares q hmid (h'.spares q hmid hq)
  containers q hq hdrawn := (h'.containers q hq hdrawn).trans
    (h.containers q (fun hdone => hq (h'.grows q hdone)) hdrawn)
  contents q hq hplaced := (h'.contents q hq hplaced).trans
    (h.contents q (fun hdone => hq (h'.grows q hdone)) hplaced)

theorem mono (h : Evolves mid' drawn placed done done' t t') (hmid : ∀ q, mid q → mid' q)
    (hdrawn : ∀ q, drawn q → drawn' q) (hplaced : ∀ q, placed q → placed' q) :
    Evolves mid drawn' placed' done done' t t' where
  grows := h.grows
  spares q hq := h.spares q (hmid q hq)
  containers q hq hd := h.containers q (fun hdone => hmid q (hq hdone)) fun hd' => hd (hdrawn q hd')
  contents q hq hp := h.contents q (fun hdone => hmid q (hq hdone)) fun hp' => hp (hplaced q hp')

/-- What is done in the end need not be excepted. -/
theorem except (h : Evolves mid (fun q => q = x ∨ drawn q) (fun q => q = x ∨ placed q) done done'
    t t') (hdone : done' x) (hmid : ¬ mid x) : Evolves mid drawn placed done done' t t' := by
  have hother : ∀ q, (done' q → mid q) → q ≠ x := by
    rintro _ hq rfl
    exact hmid (hq hdone)
  exact ⟨h.grows, h.spares,
    fun q hq hd => h.containers q hq (not_or.mpr ⟨hother q hq, hd⟩),
    fun q hq hp => h.contents q hq (not_or.mpr ⟨hother q hq, hp⟩)⟩

end Evolves

/-- A compile of a certain node gets to what a task is about. -/
def Meets (w : Scene) (a : NodeId) : Task NodeId Command → Prop
  | .require n | .gather n _ => ∃ access, w.Reaches a access n
  | .resolve n => w.Opens a n
  | .resolveAll ns => ∀ n ∈ ns, w.Opens a n

/-- A task has nothing to do with containers that are being put together: it comes up on behalf
of a node, an extra motion, from where no compile gets back to the container. -/
def Clear (w : Scene) (mid : NodeId → Prop) (task : Task NodeId Command) : Prop :=
  ∀ q, mid q → ∃ a, (∀ access, ¬ w.Reaches a access q) ∧ w.Meets a task

theorem Clear.imp (h : w.Clear mid task) (htask : ∀ a, w.Meets a task → w.Meets a task') :
    w.Clear mid task' :=
  fun q hq => (h q hq).imp fun a ha => ⟨ha.1, htask a ha.2⟩

theorem Reaches.of_requires {a : NodeId} {access : Access} (h : w.Reaches a access x)
    (hm : ReflTransGen (w.graph.Requires []) x m) : ∃ access', w.Reaches a access' m := by
  induction hm with
  | refl => exact ⟨access, h⟩
  | tail _ hrequires ih =>
      obtain ⟨access', h'⟩ := ih
      exact ⟨_, h'.required hrequires⟩

theorem Clear.apart (h : w.Clear mid (.require x)) : w.Apart mid x := by
  intro q hq hxq
  obtain ⟨a, hclear, access, hreaches⟩ := h q hq
  obtain ⟨access', hreaches'⟩ := hreaches.of_requires hxq
  exact hclear access' hreaches'

theorem Meets.required {a : NodeId} {rs : List Need} (h : w.Meets a (.gather x rs))
    (hm : w.graph.Requires [] x m) : w.Meets a (.require m) := by
  obtain ⟨access, hreaches⟩ := h
  exact ⟨_, hreaches.required hm⟩

theorem Meets.children {a : NodeId} (h : w.Meets a (.resolve x)) :
    w.Meets a (.resolveAll (w.graph.children isolated x)) :=
  fun _ hm => Opens.resolved h (.child .root hm)

/-- How far a waiting container is put together.  The requirements that were gone through have
made of its matrices what they make of them in the solution; if the container was done before,
the rest of its matrices is as in the solution already. -/
structure Drafted (w z : Scene) (n : NodeId) (pre : List Need) (added : List NodeId)
    (done : NodeId → Prop) (t : Scene) : Prop where
  present : ∀ m, .node m ∈ pre → done m
  moves : ∀ y ∈ added, w.Moves y n → .node y ∈ pre
  drawn : t.Drawn n (pre.foldl z.bring {})
  working : done n → (pre.foldl z.bring {}).working = none → t.working n = z.working n
  content : done n → t.content? n = z.content? n

namespace Drafted

variable {pre rs : List Need} {added added' : List NodeId}

/-- Where the solution itself is as far, there is nothing left to do. -/
theorem container (h : Drafted w z x pre added done t) (ht : t.wiring = z.wiring)
    (hz : z.Drawn x (pre.foldl z.bring {})) (hdone : done x) :
    t.container? x = z.container? x := by
  refine container?_ext ht ?_ (h.content hdone)
  by_cases hworking : (pre.foldl z.bring {}).working = none
  · exact h.working hdone hworking
  · exact working_eq_of_drawn ht h.drawn hz hworking

theorem gap (h : Drafted w z x pre added done t) : Drafted w z x (pre ++ [.gap]) added done t where
  present m hm := h.present m (by simpa using hm)
  moves y hy hmoves := List.mem_append_left _ (h.moves y hy hmoves)
  drawn := by simpa [bring] using h.drawn
  working := by simpa [bring] using h.working
  content := h.content

/-- Nothing was gone through when a node begins to wait. -/
theorem nil (h : Agrees w z done mid t) (hmid : ¬ mid x) (hmoves : ∀ y ∈ added, ¬ w.Moves y x) :
    Drafted w z x [] added done t where
  present m hm := by cases hm
  moves y hy hmove := absurd hmove (hmoves y hy)
  drawn c _ := Matrices.describes_empty c
  working hdone _ := by rw [working_eq_map, h.containers x hdone hmid, working_eq_map]
  content hdone := by rw [content?_eq_map, h.containers x hdone hmid, content?_eq_map]

theorem present_node (h : Drafted w z x pre added done t)
    (hevolves : Evolves mid drawn placed done done' t t') (hdone : done' m) :
    ∀ y, .node y ∈ pre ++ [(.node m : Need)] → done' y := by
  intro y hy
  rcases List.mem_append.mp hy with hy | hy
  · exact hevolves.grows y (h.present y hy)
  · obtain rfl : y = m := by simpa using hy
    exact hdone

theorem moves_node (h : Drafted w z x pre added done t)
    (hmoves : ∀ y ∈ added', y ∉ added → w.Moves y x → y = m) :
    ∀ y ∈ added', w.Moves y x → .node y ∈ pre ++ [(.node m : Need)] := by
  intro y hy hmove
  by_cases hold : y ∈ added
  · exact List.mem_append_left _ (h.moves y hold hmove)
  · simp [hmoves y hy hold hmove]

section

variable (hw : w.WellFormed) (hx : w.node x = .ok n)
include hw hx

/-- While the container waits for an extra motion of its own, nothing but the motion comes near
it. -/
theorem motion (h : Drafted w z x pre added done t)
    (hneeds : needs [] x n = pre ++ .node m :: rs) (hm : w.Moves m x) (hmid : mid x)
    (hevolves : Evolves mid drawn placed done done' t t') (hplaced : ¬ placed x) (hdone : done' m)
    (hmoves : ∀ y ∈ added', y ∉ added → w.Moves y x → y = m)
    (hdrawn : t'.Drawn x (z.bring (pre.foldl z.bring {}) (.node m))) :
    Drafted w z x (pre ++ [.node m]) added' done' t' := by
  have hloud : ¬ w.Quiet (.node m) := fun hstill => Still.not_moves hstill hm
  have hsome := working_of_not_quiet (s := z) hw hx hneeds hloud {}
  refine ⟨h.present_node hevolves hdone, h.moves_node hmoves, ?_, fun _ hnone => ?_, fun hx' => ?_⟩
  · rwa [List.foldl_concat]
  · rw [hnone] at hsome
    cases hsome
  · exact (hevolves.contents x (fun _ => hmid) hplaced).trans
      (h.content (hevolves.spares x hmid hx'))

variable (hsolution : Solution w z) (hgrounded : w.graph.Grounded x)
include hsolution hgrounded

/-- A command reads what was gone through before, which is as in the solution. -/
theorem drawn_inline (h : Drafted w z x pre added done t)
    (hagrees : Agrees w z done (fun q => q = x ∨ mid q) t) (hapart : w.Apart mid x) {step : Step}
    (hneeds : needs [] x n = pre ++ .command (.step step) :: rs) (ht : step.change t = .ok t') :
    t'.Drawn x ((pre ++ [(.command (.step step) : Need)]).foldl z.bring {}) := by
  have hreads : ∀ y ∈ reads (.command (.step step)),
      done y ∧ w.Apart (fun q => q = x ∨ mid q) y := by
    intro y hy
    have hy : y ∈ [] ++ Requirement.nodes pre ++ [] :=
      reads_mem_of_orderly (hneeds ▸ orderly_needs x n) y hy
    have hy : .node y ∈ pre := by simpa using hy
    exact ⟨h.present y hy, .of_needs hx hgrounded hapart (by simp [hneeds, hy])⟩
  obtain ⟨_, heq, hstep⟩ := emits_of_needs (c := .step step) hx (by simp [hneeds])
  cases heq
  rw [List.foldl_concat,
    ← (hagrees.keeps hsolution).bring_eq hsolution.wiring (hagrees.closed.apart _) hreads]
  exact hstep.drawn hw hagrees.wiring ht h.drawn

/-- The next command among the requirements of the container is executed. -/
theorem inline (h : Drafted w z x pre added done t)
    (hagrees : Agrees w z done (fun q => q = x ∨ mid q) t) (hapart : w.Apart mid x) {step : Step}
    (hneeds : needs [] x n = pre ++ .command (.step step) :: rs) (ht : step.change t = .ok t') :
    Drafted w z x (pre ++ [.command (.step step)]) added done t' := by
  have hz := hsolution.wiring
  have hwiring := (step.change_rewrites t t' ht).alike.wiring.trans (hagrees.wiring.trans hz.symm)
  have hdrawn := h.drawn_inline hw hx hsolution hgrounded hagrees hapart hneeds ht
  have hloud : ¬ w.Quiet (.command (.step step)) := id
  have hsome := working_of_not_quiet (s := z) hw hx hneeds hloud {}
  refine ⟨fun y hy => h.present y (by simpa using hy),
    fun y hy hmove => List.mem_append_left _ (h.moves y hy hmove), hdrawn, fun _ hnone => ?_,
    fun hdone => ?_⟩
  · rw [hnone] at hsome
    cases hsome
  by_cases hplaces : ∃ originX originY, step = .placeContent x originX originY
  · obtain ⟨originX, originY, rfl⟩ := hplaces
    have hsolved := drawn_upto hw hz hx (hsolution.satisfied x hgrounded n hx) hneeds
      (Or.inr ⟨originX, originY, rfl⟩)
    refine content?_eq_of_drawn hwiring hdrawn hsolved ?_
    rw [List.foldl_concat] at hsome ⊢
    have hsome : (pre.foldl z.bring {}).working.isSome := hsome
    simp [bring, Option.isSome_iff_ne_none.mp hsome]
  · refine (content?_of_needs hx (by simp [hneeds]) ht fun _ originX originY hstep => ?_).trans
      (h.content hdone)
    exact hplaces ⟨originX, originY, hstep⟩

/-- While the container waits for a node that is not an extra motion, it may be visited itself:
then it is put together entirely, and goes on from there. -/
theorem still (h : Drafted w z x pre added done t)
    (hneeds : needs [] x n = pre ++ .node m :: rs) (hm : w.Still m) (hmid : ¬ mid x)
    (hagrees : Agrees w z done' mid t')
    (hevolves : Evolves mid (w.Moves m) placed done done' t t') (hdone : done' m)
    (hmoves : ∀ y ∈ added', y ∉ added → w.Moves y x → y = m) :
    Drafted w z x (pre ++ [.node m]) added' done' t' := by
  have hfold : (pre ++ [(.node m : Need)]).foldl z.bring {} = pre.foldl z.bring {} := by
    rw [List.foldl_concat, bring_node_of_still hsolution.wiring hm]
  have hz := drawn_upto hw hsolution.wiring hx (hsolution.satisfied x hgrounded n hx) hneeds
    (Or.inl hm)
  have hcontainer : done' x → t'.container? x = z.container? x := fun hx' =>
    hagrees.containers x hx' hmid
  refine ⟨h.present_node hevolves hdone, h.moves_node hmoves, ?_, fun hx' _ => ?_, fun hx' => ?_⟩
  · by_cases hx' : done' x
    · exact hz.of_container? (hcontainer hx')
    · rw [hfold]
      exact h.drawn.of_container?
        (hevolves.containers x (fun hx'' => absurd hx'' hx') hm.not_moves)
  · rw [working_eq_map, hcontainer hx', working_eq_map]
  · rw [content?_eq_map, hcontainer hx', content?_eq_map]

end

end Drafted

end Scene

end SceneGraph
