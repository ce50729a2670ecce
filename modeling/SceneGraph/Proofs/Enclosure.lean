import SceneGraph.Proofs.Naming

/-!
Lists within lists, and what they leave to the lists around them.

While the list of a model is compiled, the model is isolated, and so are the models that the
compile is within.  An isolated model emits no step, and no extra motion of it is in the list
either, since only the model itself would bring that in.
-/

namespace SceneGraph

/-- The container whose matrices a step changes. -/
def Step.drawn? : Step → Option NodeId
  | .compose x _ | .transform x _ _ | .concatParent x _ | .placeContent x _ _
  | .solvePins x _ _ _ => some x
  | _ => none

/-- The container that a step puts together from the start. -/
def Step.composed? : Step → Option NodeId
  | .compose x _ | .solvePins x _ _ _ => some x
  | _ => none

/-- A step changes the matrices of a node, or shows the node. -/
def Step.ActsOn (step : Step) (x : NodeId) : Prop :=
  step.drawn? = some x ∨ ∃ shown, step.shown? = some shown ∧ shown.node = x

/-- A list leads to another through replays of models, each in the list of the one before.  The
models are given outermost first. -/
inductive Command.Encloses : SceneList → List NodeId → SceneList → Prop
  | refl (list : SceneList) : Encloses list [] list
  | inner {list inner l : SceneList} {model : NodeId} {models : List NodeId}
      (hmodel : .replayModel model inner ∈ list.commands) (hl : Encloses inner models l) :
      Encloses list (model :: models) l

theorem Command.Encloses.trans {list inner l : SceneList} {models models' : List NodeId}
    (h : Encloses list models inner) (hl : Encloses inner models' l) :
    Encloses list (models ++ models') l := by
  induction h with
  | refl => exact hl
  | inner hmodel _ ih => exact .inner hmodel (ih hl)

namespace Scene

open Command (Encloses)

variable {s : Scene} {isolated models : List NodeId} {r x y m owner : NodeId}
  {list l : SceneList} {step : Step}

/-- The lists that a list leads to were made while the models on the way were isolated, and no
model is on the way twice. -/
theorem makes_of_encloses (h : s.graph.Makes isolated r list) (hl : Encloses list models l)
    (hnodup : isolated.Nodup) :
    s.graph.Makes (isolated ++ models) (models.getLast?.getD r) l ∧
      (isolated ++ models).Nodup ∧ ∀ m ∈ models, s.HasKind (· = .model) m := by
  induction hl generalizing isolated r with
  | refl => exact ⟨by simpa using h, by simpa using hnodup, nofun⟩
  | @inner list inner l model models hmodel _ ih =>
      rcases command_of_makes h hmodel with
        ⟨_, _, -, -, heq, -⟩ | ⟨m, inner', -, hnew, hinner, heq⟩
      · cases heq
      · cases heq
        have hnodup' : (isolated ++ [model]).Nodup :=
          List.concat_eq_append ▸ hnodup.concat hnew
        obtain ⟨hl, hnodup', hmodels⟩ := ih hinner hnodup'
        rw [List.append_assoc, List.singleton_append] at hl hnodup'
        refine ⟨?_, hnodup', List.forall_mem_cons.mpr ⟨model_of_makes h hmodel, hmodels⟩⟩
        rw [List.getLast?_cons]
        exact hl

/-- What a step acts on is its node or, for an extra motion, the container that is moved. -/
theorem Emits.actsOn (h : Emits s y step) (hx : step.ActsOn x) : x = y ∨ s.Moves y x := by
  rcases hx with hdrawn | ⟨shown, hshown, rfl⟩
  · cases h with
    | transform ht =>
        obtain rfl := Option.some.inj hdrawn
        exact .inr ⟨_, _, ht⟩
    | assign | modify | showPart | showPin | showPinnedPart => cases hdrawn
    | _ => exact .inl (Option.some.inj hdrawn).symm
  · cases h with
    | showPart | showPin | showPinnedPart =>
        cases hshown
        exact .inl rfl
    | _ => cases hshown

theorem Emits.drawn_isContainer (hs : s.WellFormed) (h : Emits s y step)
    (hx : step.drawn? = some x) : s.IsContainer x := by
  cases h with
  | transform ht =>
      obtain rfl := Option.some.inj hx
      obtain ⟨-, n, hn, hmem⟩ := hs.fits _ _ ht
      refine ⟨n, hn, ?_⟩
      cases n with
      | part p => exact isContainer_part p
      | pinnedPart p => trivial
      | _ => cases hmem
  | compose hp | concatParent hp | placeContent hp =>
      obtain rfl := Option.some.inj hx
      exact ⟨_, hp, isContainer_part _⟩
  | solvePins hp =>
      obtain rfl := Option.some.inj hx
      exact ⟨_, hp, trivial⟩
  | assign | modify | showPart | showPin | showPinnedPart => cases hx

/-- An extra motion is in a list because its container is, unless the list was compiled for the
motion. -/
theorem owner_visited (hs : s.WellFormed) (h : s.graph.Visited isolated r x)
    (hmoves : s.Moves x owner) :
    x = r ∨ s.graph.Visited isolated r owner ∧ s.graph.Requires isolated owner x := by
  cases h with
  | resolved hx =>
      cases hx with
      | root => exact .inl rfl
      | child _ hm => exact absurd hmoves (still_of_child hs hm).not_moves
  | required hy hm =>
      obtain ⟨n, hn, hneeds⟩ := mem_getD_map.mp hm
      obtain rfl := eq_of_needs_moves hs hn (mem_needs hneeds) hmoves
      exact .inr ⟨hy, hm⟩

/-- What requires anything is no isolated model. -/
theorem not_isolated_of_requires (h : s.graph.Requires isolated x y)
    (hmodel : s.kind x = .ok .model) : x ∉ isolated := by
  intro hx
  have hnone := s.nests.isolated isolated x (ownsList_iff.mpr hmodel) hx
  rw [RenderGraph.Requires, hnone] at h
  cases h

section

variable (hs : s.WellFormed) (h : s.graph.Makes isolated r l) (hr : s.Still r)
  (hstep : .step step ∈ l.commands)
include hs h hr hstep

/-- What a step of a list acts on is visited by the list, and is no isolated model. -/
theorem visited_of_actsOn (hx : step.ActsOn x) :
    s.graph.Visited isolated r x ∧ (s.kind x = .ok .model → x ∉ isolated) := by
  rcases command_of_makes h hstep with ⟨y, _, hy, hordinary, heq, hemits⟩ | ⟨_, _, -, -, -, heq⟩
  · cases heq
    rcases hemits.actsOn hx with rfl | hmoves
    · exact ⟨hy, hordinary⟩
    · rcases owner_visited hs hy hmoves with rfl | ⟨howner, hrequires⟩
      · exact absurd hmoves hr.not_moves
      · exact ⟨howner, not_isolated_of_requires hrequires⟩
  · cases heq

/-- A container that a list changes is put together from the start by the same list. -/
theorem composed_of_drawn (hx : step.drawn? = some x) :
    ∃ step', .step step' ∈ l.commands ∧ step'.composed? = some x := by
  obtain ⟨hvisited, hordinary⟩ := visited_of_actsOn hs h hr hstep (.inl hx)
  have hcontainer : s.IsContainer x := by
    rcases command_of_makes h hstep with ⟨y, _, -, -, heq, hemits⟩ | ⟨_, _, -, -, -, heq⟩
    · cases heq
      exact hemits.drawn_isContainer hs hx
    · cases heq
  obtain ⟨n, hn, hkind⟩ := hcontainer
  have hneeds : s.graph.requirements isolated x = needs [] x n := by
    rw [requirements_of_node hn, needs_eq, if_neg]
    exact fun ⟨hmodel, hmem⟩ => hordinary ((kind_eq_model hn).mpr hmodel) hmem
  have hmem : ∀ c, .command c ∈ needs [] x n → c ∈ l.commands := fun c hc =>
    h.mem_of_required hvisited (hneeds ▸ hc)
  cases n with
  | part p => exact ⟨.compose x p.placementCells, hmem _ (by simp [needs, partNeeds, emit]), rfl⟩
  | pinnedPart p =>
      exact ⟨.solvePins x p.pinCells (p.sizeCell .width) (p.sizeCell .height),
        hmem _ (by simp [needs, pinnedPartNeeds, emit]), rfl⟩
  | _ => cases hkind

end

end Scene

end SceneGraph
