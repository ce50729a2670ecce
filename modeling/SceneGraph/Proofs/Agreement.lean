import SceneGraph.Proofs.Solutions

/-!
Scenes that agree with a solution.

While a list is replayed, whatever was done so far agrees with the one solution of the
equations, except for the matrices of containers that are just being put together.  A node that
finds in place all that it needs comes to agree as well, no matter whether it was done before.
-/

namespace SceneGraph

open Relation

namespace Scene

variable {w s t u z : Scene} {id x q : NodeId} {n : Node} {group done mid mid' : NodeId → Prop}

theorem Keeps.trans (hst : Keeps w group s t) (htu : Keeps w group t u) : Keeps w group s u :=
  ⟨htu.wiring.trans hst.wiring,
    fun id n hn hid => (htu.values id n hn hid).trans (hst.values id n hn hid),
    fun id hid => (htu.containers id hid).trans (hst.containers id hid)⟩

theorem content?_eq_map (s : Scene) (id : NodeId) :
    s.content? id = (s.container? id).map (Option.map Container.content) := by
  unfold content? container?
  cases s.node id <;> rfl

theorem Container.eq_of_wiring {c c' : Container} (h : c'.wiring = c.wiring)
    (hworking : c'.working = c.working) (hcontent : c'.content = c.content) : c' = c := by
  cases c
  cases c'
  simp_all [Container.wiring]

theorem container?_wiring (n : Node) :
    n.wiring.container?.map Container.wiring = n.container?.map Container.wiring := by
  cases n <;> simp [Node.wiring, Node.container?, Container.wiring]

theorem container?_of_node (hn : s.node id = .ok n) : s.container? id = .ok n.container? := by
  unfold container?
  rw [hn]
  rfl

/-- A container stays a container with the same links. -/
theorem container?_eq_or_exists (h : t.wiring = s.wiring) (id : NodeId) :
    t.container? id = s.container? id ∨ ∃ c c', s.container? id = .ok (some c) ∧
      t.container? id = .ok (some c') ∧ c'.wiring = c.wiring := by
  by_cases hid : id < s.count
  · obtain ⟨n, hn⟩ := node_of_lt_count hid
    obtain ⟨n', hn', hwiring⟩ := node_of_wiring h hn
    have hlinks := container?_wiring n'
    rw [hwiring, container?_wiring n] at hlinks
    rw [container?_of_node hn, container?_of_node hn']
    cases hc : n.container? <;> cases hc' : n'.container? <;> simp [hc, hc'] at hlinks ⊢
    exact Or.inr hlinks.symm
  · refine Or.inl ?_
    unfold container?
    rw [node_error_of_wiring h hid]

/-- Containers with the same links differ in their matrices at most. -/
theorem container?_ext (h : t.wiring = s.wiring) (hworking : t.working id = s.working id)
    (hcontent : t.content? id = s.content? id) : t.container? id = s.container? id := by
  rcases container?_eq_or_exists h id with heq | ⟨c, c', hc, hc', hlinks⟩
  · exact heq
  · rw [working_of_container? hc, working_of_container? hc'] at hworking
    rw [content?_eq_map, content?_eq_map, hc, hc'] at hcontent
    rw [hc, hc', Container.eq_of_wiring hlinks (Except.ok.inj hworking)
      (Option.some.inj (Except.ok.inj hcontent))]

/-- What is known of a container leaves no choice for its working matrix. -/
theorem working_eq_of_drawn (h : t.wiring = s.wiring) {known : Matrices} (ht : t.Drawn id known)
    (hs : s.Drawn id known) (hknown : known.working ≠ none) : t.working id = s.working id := by
  rcases container?_eq_or_exists h id with heq | ⟨c, c', hc, hc', -⟩
  · rw [working_eq_map, heq, working_eq_map]
  · obtain ⟨m, hm⟩ := Option.ne_none_iff_exists'.mp hknown
    rw [working_of_container? hc, working_of_container? hc', (ht c' hc').working m hm,
      (hs c hc).working m hm]

theorem content?_eq_of_drawn (h : t.wiring = s.wiring) {known : Matrices} (ht : t.Drawn id known)
    (hs : s.Drawn id known) (hknown : known.content ≠ none) : t.content? id = s.content? id := by
  rcases container?_eq_or_exists h id with heq | ⟨c, c', hc, hc', -⟩
  · rw [content?_eq_map, heq, content?_eq_map]
  · obtain ⟨m, hm⟩ := Option.ne_none_iff_exists'.mp hknown
    have hcontent : c'.content = c.content :=
      ((ht c' hc').content m hm).trans ((hs c hc).content m hm).symm
    rw [content?_eq_map, content?_eq_map, hc, hc']
    exact congrArg (Except.ok ∘ some) hcontent

/-- What is not a container does not become one. -/
theorem container?_eq_none (hs : s.wiring = w.wiring) (hn : w.node id = .ok n)
    (hnone : n.container? = none) : s.container? id = .ok none := by
  obtain ⟨n', hn', hwiring⟩ := node_of_wiring hs hn
  have hlinks := container?_wiring n'
  rw [hwiring, container?_wiring n, hnone] at hlinks
  rw [container?_of_node hn', Option.map_eq_none_iff.mp hlinks.symm]

/-- The content matrix of a part is what places it. -/
theorem content?_of_part (hs : s.wiring = w.wiring) {p : Part} (hn : w.node id = .ok (.part p)) :
    s.content? id = (s.placement id).map some := by
  obtain ⟨c, hc⟩ := container?_of_isContainer
    (HasKind.mono ⟨_, hn, isContainer_part p⟩ (.of_wiring hs))
  rw [placement_of_part hs hn hc, content?_eq_map, hc]
  rfl

/-- What is not a container has no matrices to tell. -/
theorem drawn_of_none (hs : s.wiring = w.wiring) (hx : w.node x = .ok n)
    (hnone : n.container? = none) (known : Matrices) : s.Drawn x known := by
  intro c hc
  rw [container?_eq_none hs hx hnone] at hc
  cases hc

/-- What comes after the working matrix of a part leaves true what is known of a part whose
equation holds. -/
theorem drawn_foldl_placing (hw : w.WellFormed) (hz : z.wiring = w.wiring) {p : Part}
    (hx : w.node x = .ok (.part p)) (hsatisfied : z.Satisfied x (.part p)) {l : List Need}
    (hl : ∀ e ∈ l, e ∈ placing x p) {known : Matrices}
    (hworking : known.working = some (z.composed p)) (hd : z.Drawn x known) :
    z.Drawn x (l.foldl z.bring known) := by
  induction l generalizing known with
  | nil => exact hd
  | cons e l ih =>
      obtain ⟨he, hrest⟩ := List.forall_mem_cons.mp hl
      rw [List.foldl_cons]
      rcases quiet_or_placeContent hw hx e he with hquiet | rfl
      · have hbring : z.bring known e = known :=
          foldl_bring_quiet hz (List.forall_mem_singleton.mpr hquiet) known
        rw [hbring]
        exact ih hrest hworking hd
      · refine ih hrest hworking fun c hc => ⟨(hd c hc).working, fun m hm => ?_⟩
        have hcontent := hsatisfied.2.1
        rw [placement_of_part hz hx hc, Except.ok.injEq] at hcontent
        obtain ⟨m', hm', rfl⟩ := Option.map_eq_some_iff.mp hm
        obtain rfl := Option.some.inj (hworking.symm.trans hm')
        rw [hcontent, contents_eq_contentBy]

/-- Up to an entry that leaves the working matrix of a node alone, what is known of the matrices
is nothing yet or what the equation of the node says. -/
theorem drawn_upto (hw : w.WellFormed) (hz : z.wiring = w.wiring) (hx : w.node x = .ok n)
    (hsatisfied : z.Satisfied x n) {pre rs : List Need} {e : Need}
    (hneeds : needs [] x n = pre ++ e :: rs)
    (he : w.Quiet e ∨ ∃ originX originY, e = emit (.placeContent x originX originY)) :
    z.Drawn x ((pre ++ [e]).foldl z.bring {}) := by
  have hquiet : (∀ e' ∈ pre ++ [e], w.Quiet e') → z.Drawn x ((pre ++ [e]).foldl z.bring {}) := by
    intro hpre
    rw [foldl_bring_quiet hz hpre]
    exact fun c _ => Matrices.describes_empty c
  have hmotion : e ∉ n.transformations.map (.node : NodeId → Need) := by
    intro hmem
    obtain ⟨m, hm, rfl⟩ := List.mem_map.mp hmem
    rcases he with hstill | ⟨_, _, hemit⟩
    · exact Still.not_moves hstill (moves_of_transformation hw hx hm)
    · cases hemit
  cases n with
  | part p =>
      rw [needs_part_split] at hneeds
      rcases append_cons_eq_append hneeds.symm with ⟨rest, hcomposing⟩ | ⟨l, rfl, hplacing⟩
      · rcases append_cons_eq_append hcomposing.symm with ⟨rest', hearly⟩ | ⟨l, rfl, hl⟩
        · refine hquiet fun e' he' => quiet_partNeeds hw hx e' ?_
          rw [hearly, List.append_cons]
          exact List.mem_append_left _ he'
        · have hmem : e ∈ l ++ e :: rest := by simp
          rw [← hl, List.cons_append, List.mem_cons, List.mem_append] at hmem
          rcases hmem with rfl | hmem | hmem
          · exact absurd he nofun
          · exact absurd hmem hmotion
          · obtain ⟨parent, -, rfl⟩ := by simpa using hmem
            exact absurd he nofun
      · have hd : z.Drawn x ⟨some (z.composed p), none⟩ := by
          intro c hc
          refine ⟨fun m' hm' => ?_, nofun⟩
          obtain rfl := Option.some.inj hm'
          exact Except.ok.inj ((working_of_container? hc).symm.trans hsatisfied.1)
        rw [List.append_assoc, List.foldl_append, bring_composing hw hz hx]
        refine drawn_foldl_placing hw hz hx hsatisfied (fun e' he' => ?_) rfl hd
        rw [hplacing, List.append_cons]
        exact List.mem_append_left _ he'
  | pinnedPart p =>
      rw [needs_pinnedPart_split] at hneeds
      rcases append_cons_eq_append hneeds.symm with ⟨rest, hearly⟩ | ⟨l, rfl, hl⟩
      · refine hquiet fun e' he' => quiet_pinnedPartNeeds hw hx e' ?_
        rw [hearly, List.append_cons]
        exact List.mem_append_left _ he'
      · have hmem : e ∈ l ++ e :: rs := by simp
        rw [← hl, List.mem_cons] at hmem
        rcases hmem with rfl | hmem
        · exact absurd he nofun
        · exact absurd hmem hmotion
  | _ => exact drawn_of_none hz hx rfl _

section Uniqueness

variable (hw : w.WellFormed) (hz : z.wiring = w.wiring) (hgroup : w.Closed group)
  (h : Keeps w group z t) (hx : w.node x = .ok n) (hready : Ready group x n)
  (hsolved : z.Satisfied x n) (hsatisfied : t.Satisfied x n)
include hz hgroup h hx hready hsolved hsatisfied

/-- If all that a node needs agrees, its equation leaves no choice for its matrices. -/
theorem container?_eq_of_satisfied
    (hcontent : (∀ p, n ≠ .part p) → t.content? x = z.content? x) :
    t.container? x = z.container? x := by
  cases n with
  | part p =>
      refine container?_ext h.wiring ?_ ?_
      · rw [hsatisfied.1, hsolved.1, h.composed_eq hz hgroup hready]
      · rw [content?_of_part (h.wiring.trans hz) hx, content?_of_part hz hx, hsatisfied.2.1,
          hsolved.2.1, h.contents_eq hz hgroup hready]
  | pinnedPart p =>
      refine container?_ext h.wiring ?_ (hcontent fun q hq => by cases hq)
      rw [hsatisfied.1, hsolved.1, h.solved_eq hz hgroup hready]
  | _ => rw [container?_eq_none (h.wiring.trans hz) hx rfl, container?_eq_none hz hx rfl]

include hw in
/-- Nor for the numbers that it writes. -/
theorem value_eq_of_satisfied {k : Node} (hk : w.node id = .ok k)
    (hwriter : k.writer? id = some x) (hidle : ¬ w.Idle x) : t.value id = z.value id := by
  cases k with
  | scalar v requirement =>
      obtain rfl : requirement = some x := hwriter
      obtain ⟨n', hn', hshows⟩ := hw.fits id _ hk
      obtain rfl := node_unique hx hn'
      cases n with
      | part p =>
          obtain ⟨r, hr⟩ := hshows.resolve_right nofun
          rw [hsatisfied.2.2 r id hr, hsolved.2.2 r id hr, h.contents_eq hz hgroup hready,
            h.partSize_eq hw hz hgroup hready (.inl rfl),
            h.partSize_eq hw hz hgroup hready (.inr rfl)]
      | pinnedPart p =>
          obtain ⟨r, hr⟩ := hshows.resolve_right nofun
          rw [hsatisfied.2 r id hr, hsolved.2 r id hr, h.solved_eq hz hgroup hready,
            h.extent_eq hw hz hgroup hready, h.extent_eq hw hz hgroup hready]
      | pin p =>
          obtain ⟨axis, haxis⟩ := hshows.resolve_left nofun
          obtain ⟨parent, hparent⟩ : ∃ parent, p.parent = some parent :=
            Option.ne_none_iff_exists'.mp fun hnone => hidle ⟨_, hx, hnone⟩
          have hgroup' := hready.slot p.parent (by simp [needs]) parent hparent
          obtain ⟨k, hk, -⟩ := HasKind.mono ((hw.fits x _ hx).1 parent hparent) (.of_wiring hz)
          have hm : z.placement parent = .ok (k.placement?.getD Matrix.identity) := by
            rw [placement, hk]
            rfl
          have hm' := (h.placement_eq hgroup' hk).trans hm
          rw [hsatisfied parent _ hparent hm' axis id haxis,
            hsolved parent _ hparent hm axis id haxis, h.coordinate_eq hz hgroup hready,
            h.coordinate_eq hz hgroup hready]
      | _ => rcases hshows with ⟨_, h⟩ | ⟨_, h⟩ <;> cases h
  | calculated c =>
      obtain rfl := Option.some.inj hwriter
      obtain rfl := node_unique hx hk
      have hmodifiers : c.modifiers ≠ [] := fun hnone => hidle ⟨_, hx, hnone⟩
      obtain ⟨hbase, hlinks⟩ := hgroup.chain (hw.fits id _ hk).2 (hready.tail hmodifiers)
      rw [hsatisfied hmodifiers, hsolved hmodifiers, h.chainNumber_eq hz hgroup hbase hlinks]
  | modified m =>
      obtain rfl := Option.some.inj hwriter
      obtain rfl := node_unique hx hk
      have htarget := h.number_eq hz hgroup (hready m.target (by simp [needs]))
      have hslot := h.slotNumber_eq hz hgroup (hready.slot m.operand (by simp [needs]))
      have hvalue : t.value id = _ := hsatisfied
      rw [hvalue, htarget, hslot]
      exact hsolved.symm
  | _ => cases hwriter

end Uniqueness

/-- How far a scene agrees with a solution.  The done nodes have written their numbers, and their
matrices are in place unless they are being put together. -/
structure Agrees (w z : Scene) (done mid : NodeId → Prop) (t : Scene) : Prop where
  wiring : t.wiring = w.wiring
  sources : t.sourceTable = w.sourceTable
  closed : w.Closed done
  grounded : ∀ id, done id → w.graph.Grounded id
  values : ∀ id n, w.node id = .ok n → (∀ x, n.writer? id = some x → done x ∨ w.Idle x) →
    t.value id = z.value id
  containers : ∀ id, done id → ¬ mid id → t.container? id = z.container? id
  contents : ∀ id, (∀ p, w.node id ≠ .ok (.part p)) → t.content? id = z.content? id

/-- A node that leads to none of some nodes. -/
def Apart (w : Scene) (mid : NodeId → Prop) (x : NodeId) : Prop :=
  ∀ q, mid q → ¬ ReflTransGen (w.graph.Requires []) x q

theorem Apart.of_requires {y : NodeId} (h : w.Apart mid x) (hy : w.graph.Requires [] x y) :
    w.Apart mid y :=
  fun q hq hyq => h q hq (.head hy hyq)

/-- What is done apart from some nodes has all it needs. -/
theorem Closed.apart (hclosed : w.Closed done) (mid : NodeId → Prop) :
    w.Closed fun y => done y ∧ w.Apart mid y :=
  fun y _ hy hn m hm =>
    ⟨hclosed y _ hy.1 hn m hm, hy.2.of_requires ((requires_iff hn).mpr hm)⟩

/-- What a node needs does not lead back to the node, nor to what the node does not lead to. -/
theorem Apart.of_needs (hx : w.node x = .ok n) (hgrounded : w.graph.Grounded x)
    (hapart : w.Apart mid x) {m : NodeId} (hm : .node m ∈ needs [] x n) :
    w.Apart (fun q => q = x ∨ mid q) m := by
  have hrequires := (requires_iff hx).mpr hm
  rintro q (rfl | hq)
  · exact hgrounded.not_leads hrequires
  · exact hapart.of_requires hrequires q hq

theorem Ready.apart (hready : Ready done x n) (hx : w.node x = .ok n)
    (hgrounded : w.graph.Grounded x) (hapart : w.Apart mid x) :
    Ready (fun y => done y ∧ w.Apart (fun q => q = x ∨ mid q) y) x n :=
  fun m hm => ⟨hready m hm, .of_needs hx hgrounded hapart hm⟩

/-- The commands among the requirements of a node change the matrices of the node and nothing
else, and only placing the content changes the content matrix. -/
theorem update_of_needs (hx : w.node x = .ok n) {step : Step}
    (hmem : .command (.step step) ∈ needs [] x n) (h : step.change s = .ok t) :
    t = s ∨ ∃ f, s.update x (Node.mapContainer f) = .ok t ∧
      ((∀ c, (f c).content = c.content) ∨
        ∃ originX originY, step = .placeContent x originX originY) := by
  obtain ⟨_, heq, hstep⟩ := emits_of_needs hx hmem
  cases heq
  cases hstep with
  | compose =>
      obtain ⟨_, -, h⟩ := except_bind_eq_ok.mp h
      obtain ⟨_, -, h⟩ := except_bind_eq_ok.mp h
      obtain ⟨_, -, h⟩ := except_bind_eq_ok.mp h
      obtain ⟨_, -, h⟩ := except_bind_eq_ok.mp h
      obtain ⟨_, -, hmap⟩ := except_bind_eq_ok.mp h
      exact Or.inr ⟨_, hmap, Or.inl fun _ => rfl⟩
  | concatParent =>
      obtain ⟨k, -, h⟩ := except_bind_eq_ok.mp h
      cases hc : k.container? with
      | none =>
          rw [hc] at h
          exact Or.inl (Except.ok.inj h).symm
      | some c =>
          rw [hc] at h
          exact Or.inr ⟨_, h, Or.inl fun _ => rfl⟩
  | placeContent =>
      obtain ⟨_, -, h⟩ := except_bind_eq_ok.mp h
      obtain ⟨_, -, hmap⟩ := except_bind_eq_ok.mp h
      exact Or.inr ⟨_, hmap, Or.inr ⟨_, _, rfl⟩⟩
  | solvePins =>
      obtain ⟨_, -, h⟩ := except_bind_eq_ok.mp h
      obtain ⟨_, -, h⟩ := except_bind_eq_ok.mp h
      obtain ⟨_, -, hmap⟩ := except_bind_eq_ok.mp h
      exact Or.inr ⟨_, hmap, Or.inl fun _ => rfl⟩
  | assign hx' | modify hx' | transform hx' | showPin hx' | showPart hx' | showPinnedPart hx' =>
      obtain rfl := node_unique hx hx'
      simp [needs, partNeeds, pinnedPartNeeds, emit, requirement_ofOption_ne_command.symm] at hmem

theorem value_of_needs (hx : w.node x = .ok n) {step : Step}
    (hmem : .command (.step step) ∈ needs [] x n) (h : step.change s = .ok t) (id : NodeId) :
    t.value id = s.value id := by
  rcases update_of_needs hx hmem h with rfl | ⟨f, hmap, -⟩
  · rfl
  · exact value_mapContainer hmap id

theorem container?_of_needs (hx : w.node x = .ok n) {step : Step}
    (hmem : .command (.step step) ∈ needs [] x n) (h : step.change s = .ok t) (hq : q ≠ x) :
    t.container? q = s.container? q := by
  rcases update_of_needs hx hmem h with rfl | ⟨f, hmap, -⟩
  · rfl
  · exact container?_update_of_ne hmap hq

theorem content?_of_needs (hx : w.node x = .ok n) {step : Step}
    (hmem : .command (.step step) ∈ needs [] x n) (h : step.change s = .ok t)
    (hq : q = x → ∀ originX originY, step ≠ .placeContent x originX originY) :
    t.content? q = s.content? q := by
  rcases update_of_needs hx hmem h with rfl | ⟨f, hmap, hcontent⟩
  · rfl
  by_cases hqx : q = x
  · refine content?_mapContainer hmap (hcontent.resolve_right ?_) q
    rintro ⟨originX, originY, hstep⟩
    exact hq hqx originX originY hstep
  · exact content?_update_of_ne hmap hqx

namespace Agrees

/-- Before anything is done, it is enough that the solution goes back to the same scene. -/
theorem start (hs : s.wiring = w.wiring) (hsources : s.sourceTable = w.sourceTable)
    (h : Touches w (fun _ => True) s z) (mid : NodeId → Prop) :
    Agrees w z (fun _ => False) mid s where
  wiring := hs
  sources := hsources
  closed _ _ hid := hid.elim
  grounded _ hid := hid.elim
  values _ n hn hid := (h.values _ n hn fun x hx => Or.inr ((hid x hx).resolve_left id)).symm
  containers _ hid := hid.elim
  contents id hid := (h.contents id fun _ => hid).symm

/-- With more containers being put together there is less to agree. -/
theorem mono (h : Agrees w z done mid t) (hmid : ∀ q, mid q → mid' q) :
    Agrees w z done mid' t where
  __ := h
  containers id hid hq := h.containers id hid fun hmem => hq (hmid id hmem)

/-- A container that is in place is no longer being put together. -/
theorem release (h : Agrees w z done (fun q => q = x ∨ mid q) t)
    (hx : done x → t.container? x = z.container? x) : Agrees w z done mid t where
  __ := h
  containers q hdone hq := by
    by_cases hqx : q = x
    · subst hqx
      exact hx hdone
    · exact h.containers q hdone (not_or.mpr ⟨hqx, hq⟩)

variable (hsolution : Solution w z)
include hsolution

/-- What is done, apart from the containers that are being put together, is as in the
solution. -/
theorem keeps (h : Agrees w z done mid t) :
    Keeps w (fun y => done y ∧ w.Apart mid y) z t where
  wiring := h.wiring.trans hsolution.wiring.symm
  values id n hn hid := h.values id n hn fun x hx => Or.inl (hid x hx).1
  containers id hid := h.containers id hid.1 fun hmid => hid.2 id hmid .refl

variable (hw : w.WellFormed)
include hw

theorem satisfied (h : Agrees w z done mid t) (hid : done id ∧ w.Apart mid id)
    (hn : w.node id = .ok n) : t.Satisfied id n :=
  (h.keeps hsolution).satisfied hw hsolution.wiring (h.closed.apart mid) hid hn
    (hsolution.satisfied id (h.grounded id hid.1) n hn)

omit hsolution in
/-- A container goes on being put together. -/
theorem inline (h : Agrees w z done mid t) (hx : w.node x = .ok n) (hmid : mid x) {step : Step}
    (hmem : .command (.step step) ∈ needs [] x n) (ht : step.change t = .ok u) :
    Agrees w z done mid u := by
  obtain ⟨_, heq, hstep⟩ := emits_of_needs hx hmem
  cases heq
  have htouches := hstep.touches hw h.wiring ht
  refine { h with
    wiring := htouches.wiring.trans h.wiring
    sources := (step.change_rewrites t u ht).alike.sources.trans h.sources
    values := fun id k hk hid => ?_
    containers := fun id hid hq => ?_
    contents := fun id hid => ?_ }
  · exact (value_of_needs hx hmem ht id).trans (h.values id k hk hid)
  · refine (container?_of_needs hx hmem ht ?_).trans (h.containers id hid hq)
    rintro rfl
    exact hq hmid
  · exact (htouches.contents id fun _ => hid).trans (h.contents id hid)

/-- A node that has all it needs, and is put together if it is a container, comes to agree once
its steps are executed.  If it is an extra motion, its container is one entry further. -/
theorem complete (h : Agrees w z done (fun q => q = x ∨ mid q) t) (hx : w.node x = .ok n)
    (hxGrounded : w.graph.Grounded x) (hready : Ready done x n) (hapart : w.Apart mid x)
    (hmoves : ∀ owner, w.Moves x owner → mid owner)
    (hdrawn : t.Drawn x ((needs [] x n).foldl z.bring {})) :
    ∃ t', Leads ((n.steps x).map .step) t t' ∧ Touches w (· = x) t t' ∧
      Agrees w z (fun y => y = x ∨ done y) mid t' ∧
      ∀ owner, w.Moves x owner → ∀ known, t.Drawn owner known →
        t'.Drawn owner (z.bring known (.node x)) := by
  have hz := hsolution.wiring
  have hgroup := h.closed.apart fun q => q = x ∨ mid q
  have hfresh : ¬ (done x ∧ w.Apart (fun q => q = x ∨ mid q) x) := fun hmem =>
    hmem.2 x (Or.inl rfl) .refl
  have hreadyApart := hready.apart hx hxGrounded hapart
  have hkeeps := h.keeps hsolution
  rw [← hkeeps.foldl_bring_eq hz hgroup hreadyApart.reads] at hdrawn
  obtain ⟨t', hleads, hcompletes⟩ := completes hw h.wiring hgroup
    (fun y hy k hk => h.satisfied hsolution hw hy hk) hx hreadyApart hfresh hdrawn
  have htouches := hcompletes.touches
  have hkeeps' := hkeeps.trans (hgroup.keeps hw htouches (by rintro _ rfl; exact hfresh))
  have hsolved := hsolution.satisfied x hxGrounded n hx
  have hcontents : ∀ id, (∀ p, w.node id ≠ .ok (.part p)) → t'.content? id = z.content? id :=
    fun id hid => (htouches.contents id fun _ => hid).trans (h.contents id hid)
  have hcontainer : t'.container? x = z.container? x :=
    container?_eq_of_satisfied hz hgroup hkeeps' hx hreadyApart hsolved hcompletes.satisfied
      fun hpart => hcontents x fun p hp => hpart p (node_unique hx hp)
  refine ⟨t', hleads, htouches, ⟨htouches.wiring.trans h.wiring,
    hleads.rewrites.alike.sources.trans h.sources, ?_, ?_, ?_, ?_, hcontents⟩, ?_⟩
  · rintro y k (rfl | hy) hk m hm
    · obtain rfl := node_unique hk hx
      exact Or.inr (hready m hm)
    · exact Or.inr (h.closed y k hy hk m hm)
  · rintro y (rfl | hy)
    · exact hxGrounded
    · exact h.grounded y hy
  · intro id k hk hid
    by_cases hwriter : k.writer? id = some x ∧ ¬ w.Idle x
    · exact value_eq_of_satisfied hw hz hgroup hkeeps' hx hreadyApart hsolved hcompletes.satisfied
        hk hwriter.1 hwriter.2
    · have hother : ∀ y, k.writer? id = some y → y ≠ x ∨ w.Idle y := by
        intro y hy
        by_cases hyx : y = x
        · subst hyx
          exact Or.inr (not_not.mp fun hidle => hwriter ⟨hy, hidle⟩)
        · exact Or.inl hyx
      refine (htouches.values id k hk hother).trans (h.values id k hk fun y hy => ?_)
      rcases hid y hy with (rfl | hdone) | hidle
      · exact Or.inr ((hother y hy).resolve_left fun hne => hne rfl)
      · exact Or.inl hdone
      · exact Or.inr hidle
  · intro id hid hq
    by_cases hidx : id = x
    · exact hidx ▸ hcontainer
    · have hmoved : ∀ y, y = x → ¬ w.Moves y id := by
        rintro _ rfl hmoved
        exact hq (hmoves id hmoved)
      exact (htouches.containers id hidx hmoved).trans (h.containers id (hid.resolve_left hidx)
        (not_or.mpr ⟨hidx, hq⟩))
  · intro owner howner known hd
    have hd' := hcompletes.moves owner howner known hd
    obtain ⟨motion, amount, hstep⟩ := howner
    obtain rfl := node_unique hx hstep
    have hamount := hkeeps'.number_eq hz hgroup (hreadyApart amount (by simp [needs]))
    have hmoved : ∀ m, t'.moved m x = z.moved m x := fun m => by
      rw [moved_of_node (hkeeps'.wiring.trans hz) hx, moved_of_node hz hx, hamount]
    have hbring : t'.bring known (.node x) = z.bring known (.node x) := by
      simp only [bring, hmoved]
    rwa [hbring] at hd'

end Agrees

end Scene

end SceneGraph
