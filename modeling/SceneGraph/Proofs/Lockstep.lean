import SceneGraph.Proofs.Widening

/-!
Replays before and after an accessor made something.

Two replays go in lockstep: lists that are alike, on a scene and on what an accessor made of it,
overwrite the same numbers and matrices with the same, and make the same calls.  The one with
more nodes also writes the new read-backs, which nobody reads.  Main statement of this part:
`Scene.Widens.replay`.
-/

namespace SceneGraph

/-- Two loops over lists that are related entry by entry. -/
theorem foldlM_lockstep {ε α α' β β' : Type} {e : α → α' → Prop} {R : β → β' → Prop}
    {f : β → α → Except ε β} {f' : β' → α' → Except ε β'} {l : List α} {l' : List α'}
    (hl : List.Forall₂ e l l')
    (hf : ∀ {a a' b b' c c'}, e a a' → R b b' → f b a = .ok c → f' b' a' = .ok c' → R c c')
    {b c : β} {b' c' : β'} (h : R b b') (hc : l.foldlM f b = .ok c)
    (hc' : l'.foldlM f' b' = .ok c') : R c c' := by
  induction hl generalizing b b' with
  | nil =>
      cases hc
      cases hc'
      exact h
  | cons hfirst _ ih =>
      rw [List.foldlM_cons] at hc hc'
      obtain ⟨d, hd, hc⟩ := except_bind_eq_ok.mp hc
      obtain ⟨d', hd', hc'⟩ := except_bind_eq_ok.mp hc'
      exact ih (hf hfirst h hd hd') hc hc'

/-- A function that yields all that another one yields does so on lists. -/
theorem mapM_eq_ok {ε α β : Type} {f f' : α → Except ε β}
    (hf : ∀ {a b}, f a = .ok b → f' a = .ok b) {l : List α} {bs : List β}
    (h : l.mapM f = .ok bs) : l.mapM f' = .ok bs := by
  induction l generalizing bs with
  | nil => exact h
  | cons a l ih =>
      rw [List.mapM_cons] at h ⊢
      obtain ⟨b, hb, h⟩ := except_bind_eq_ok.mp h
      obtain ⟨rest, hrest, h⟩ := except_bind_eq_ok.mp h
      rw [hf hb, ok_bind, ih hrest]
      exact h

variable {γ : Widening} {s t s' t' w : Scene} {x x' : NodeId} {n n' : Node}

namespace Scene.Widens

section Reading

variable (h : s.Widens γ t)
include h

theorem value_cell : t.value γ.cell = .ok γ.base := by
  obtain ⟨n, hn, hconstant⟩ := h.cell
  unfold Scene.value
  rw [hn]
  cases hconstant <;> rfl

/-- A cell shows what the cell shows for which it stands. -/
theorem value {v : Float} (hx : γ.Stands x x') (hv : s.value x = .ok v) : t.value x' = .ok v := by
  rcases hx with rfl | ⟨rfl, rfl⟩
  · obtain ⟨n, hn, hvalue⟩ := except_bind_eq_ok.mp hv
    obtain ⟨n', hn', hwidens⟩ := h.node _ n hn
    exact except_bind_eq_ok.mpr ⟨n', hn', by rw [hwidens.value]; exact hvalue⟩
  · rw [Scene.value, h.shared] at hv
    cases hv
    exact h.value_cell

theorem slotValue {o o' : Option NodeId} (ho : γ.Fills zeroCell o o') {v : Float}
    (hv : s.slotValue o = .ok v) : t.slotValue o' = .ok v := by
  rcases ho with rfl | ⟨hzero, rfl, rfl⟩
  · cases o' with
    | none => exact hv
    | some cell => exact h.value (.inl rfl) hv
  · cases hv
    exact γ.zero hzero.symm ▸ h.value_cell

theorem pinPair {c : PinCells} {p : PinPair Float} (hp : s.pinPair c = .ok p) :
    t.pinPair c = .ok p := by
  obtain ⟨_, hox, hp⟩ := except_bind_eq_ok.mp hp
  obtain ⟨_, hoy, hp⟩ := except_bind_eq_ok.mp hp
  obtain ⟨_, htx, hp⟩ := except_bind_eq_ok.mp hp
  obtain ⟨_, hty, hp⟩ := except_bind_eq_ok.mp hp
  unfold Scene.pinPair
  rw [h.value (.inl rfl) hox, ok_bind, h.value (.inl rfl) hoy, ok_bind, h.value (.inl rfl) htx,
    ok_bind, h.value (.inl rfl) hty]
  exact hp

theorem readbackValue {r : Readback} {v : Float} (hv : s.readbackValue x r = .ok v) :
    t.readbackValue x r = .ok v := by
  obtain ⟨n, hn, hv⟩ := except_bind_eq_ok.mp hv
  obtain ⟨n', hn', hwidens⟩ := h.node x n hn
  unfold Scene.readbackValue
  rw [hn', ok_bind, hwidens.placement?]
  cases hplacement : n.placement? with
  | none =>
      rw [hplacement] at hv
      exact hv
  | some m =>
      rw [hplacement] at hv
      cases r with
      | width | height =>
          obtain ⟨_, hsize, hv⟩ := except_bind_eq_ok.mp hv
          exact except_bind_eq_ok.mpr ⟨_, h.value (hwidens.sizeCellOf _) hsize, hv⟩
      | _ => exact hv

theorem pinPosition? {p : Option (Point Float)} (hp : s.pinPosition? x = .ok p) :
    t.pinPosition? x = .ok p := by
  have hpin : ∀ {q q' : Pin}, s.node x = .ok (.pin q) → t.node x = .ok (.pin q') →
      q.Widens γ q' → t.pinPosition? x = .ok p := by
    intro q q' hq hq' hwidens
    unfold Scene.pinPosition? at hp ⊢
    rw [hq, ok_bind] at hp
    rw [hq', ok_bind]
    simp only [hwidens.parent]
    cases hparent : q.parent with
    | none =>
        simp only [hparent] at hp
        exact hp
    | some k =>
        simp only [hparent] at hp
        obtain ⟨n, hn, hp⟩ := except_bind_eq_ok.mp hp
        obtain ⟨n', hn', hparentWidens⟩ := h.node k n hn
        simp only [hn', ok_bind, hparentWidens.placement?]
        cases hplacement : n.placement? with
        | none =>
            rw [hplacement] at hp
            exact hp
        | some m =>
            rw [hplacement] at hp
            obtain ⟨_, hx, hp⟩ := except_bind_eq_ok.mp hp
            obtain ⟨_, hy, hp⟩ := except_bind_eq_ok.mp hp
            simp only [h.slotValue (hwidens.coordinates .x) hx,
              h.slotValue (hwidens.coordinates .y) hy, ok_bind]
            exact hp
  obtain ⟨n, hn, hrest⟩ := except_bind_eq_ok.mp hp
  obtain ⟨n', hn', hwidens⟩ := h.node x n hn
  cases hwidens with
  | pin hwidens => exact hpin hn hn' hwidens
  | part | pinnedPart => exact except_bind_eq_ok.mpr ⟨_, hn', hrest⟩
  | refl =>
      cases n with
      | pin q => exact hpin hn hn' (.refl q)
      | _ => exact except_bind_eq_ok.mpr ⟨_, hn', hrest⟩

theorem suppliedInputs {inputs : List (InputIndex × Float)}
    (hi : s.suppliedInputs x = .ok inputs) : t.suppliedInputs x = .ok inputs := by
  obtain ⟨n, hn, hi⟩ := except_bind_eq_ok.mp hi
  obtain ⟨n', hn', hwidens⟩ := h.node x n hn
  unfold Scene.suppliedInputs
  rw [hn', ok_bind, hwidens.model?]
  refine mapM_eq_ok (fun hb => ?_) hi
  obtain ⟨v, hv, hb⟩ := except_bind_eq_ok.mp hb
  exact except_bind_eq_ok.mpr ⟨v, h.value (.inl rfl) hv, hb⟩

end Reading

section Writing

variable (h : s.Widens γ t)
include h

/-- One node is changed in both scenes, in a way that leaves constants as they are. -/
theorem update {f g : Node → Node} (hs : s.update x f = .ok s') (ht : t.update x g = .ok t')
    (hfg : ∀ n n', n.Widens γ n' → (f n).Widens γ (g n'))
    (hshared : x = γ.shared → f (.scalar γ.base none) = .scalar γ.base none)
    (hcell : x = γ.cell → ∀ n, n.IsConstant γ.base → g n = n) : s'.Widens γ t' := by
  refine ⟨(count_update hs).trans h.count, fun y n hn => ?_, ?_, ?_⟩
  · by_cases hy : y = x
    · subst hy
      rw [node_update_self hs] at hn
      obtain ⟨m, hm, rfl⟩ := except_map_eq_ok.mp hn
      obtain ⟨m', hm', hwidens⟩ := h.node y m hm
      exact ⟨g m', by rw [node_update_self ht, hm']; rfl, hfg m m' hwidens⟩
    · rw [node_update_of_ne hs hy] at hn
      rw [node_update_of_ne ht hy]
      exact h.node y n hn
  · by_cases hx : γ.shared = x
    · rw [hx, node_update_self hs, ← hx, h.shared]
      exact congrArg Except.ok (hshared hx.symm)
    · rw [node_update_of_ne hs hx]
      exact h.shared
  · obtain ⟨n, hn, hconstant⟩ := h.cell
    refine ⟨n, ?_, hconstant⟩
    by_cases hx : γ.cell = x
    · rw [hx, node_update_self ht, ← hx, hn]
      exact congrArg Except.ok (hcell hx.symm n hconstant)
    · rwa [node_update_of_ne ht hx]

theorem setValue {v : Float} (hx : x ≠ γ.shared) (hs : s.setValue x v = .ok s')
    (ht : t.setValue x v = .ok t') : s'.Widens γ t' := by
  refine h.update hs ht (fun n n' hwidens => hwidens.setValue v) (fun heq => absurd heq hx) ?_
  rintro rfl
  have hlt : γ.cell < γ.first := h.count ▸ lt_count_of_update hs
  exact absurd (γ.apart.resolve_left hx) (Nat.not_le_of_lt hlt)

theorem mapContainer {f : Container → Container}
    (hs : s.update x (Node.mapContainer f) = .ok s')
    (ht : t.update x (Node.mapContainer f) = .ok t') : s'.Widens γ t' :=
  h.update hs ht (fun _ _ hwidens => hwidens.mapContainer f) (fun _ => rfl)
    fun _ n hn => by cases hn <;> rfl

/-- What is written to a new node makes no difference. -/
theorem setNew {v : Float} (hx : γ.first ≤ x) (hcell : x ≠ γ.cell)
    (ht : t.setValue x v = .ok t') : s.Widens γ t' := by
  refine ⟨h.count, fun y n hn => ?_, h.shared, ?_⟩
  · have hlt : y < γ.first := h.count ▸ lt_count_of_node hn
    rw [node_update_of_ne ht (Nat.ne_of_lt (Nat.lt_of_lt_of_le hlt hx))]
    exact h.node y n hn
  · rw [node_update_of_ne ht hcell.symm]
    exact h.cell

/-- A number is written to a slot in both scenes, or to a cell that only one of them has there. -/
theorem setSlotValue {o o' : Option NodeId} {v : Float} (ho : γ.Adds o o')
    (hold : ∀ cell, o = some cell → cell ≠ γ.shared) (hs : s.setSlotValue o v = .ok s')
    (ht : t.setSlotValue o' v = .ok t') : s'.Widens γ t' := by
  rcases ho with rfl | ⟨rfl, cell, rfl, hfirst, hcell⟩
  · cases o' with
    | none =>
        cases hs
        cases ht
        exact h
    | some cell => exact h.setValue (hold cell rfl) hs ht
  · cases hs
    exact h.setNew hfirst hcell ht

end Writing

section Showing

variable (h : s.Widens γ t) (hs : s.WellFormed)
include h

theorem ne_shared {p : NodeKind → Prop} (hx : s.HasKind p x) (hp : ¬ p .scalar) :
    x ≠ γ.shared := by
  rintro rfl
  exact hp (hx.of_kind (.of_node h.shared rfl))

include hs

/-- What a node is read back into is none of the shared cells. -/
theorem ne_shared_of_shows {cell : NodeId} (hn : s.node x = .ok n) (hshows : n.Shows cell) :
    cell ≠ γ.shared := by
  rintro rfl
  obtain ⟨v, hv⟩ := hs.scalar_of_shows hn hshows
  cases node_unique h.shared hv

end Showing

/-- Read-backs are refreshed in both scenes, each scene those that it has. -/
theorem refreshReadback {owner : NodeId} {slots slots' : Slots Readback} {r : Readback}
    (h : s.Widens γ t) (hslot : γ.Adds (slots r) (slots' r))
    (hold : ∀ cell, slots r = some cell → cell ≠ γ.shared)
    (hs : Scene.refreshReadback owner slots s r = .ok s')
    (ht : Scene.refreshReadback owner slots' t r = .ok t') : s'.Widens γ t' := by
  unfold Scene.refreshReadback at hs ht
  rcases hslot with heq | ⟨hnone, cell, hcell, hfirst, hne⟩
  · rw [heq] at ht
    cases hslot : slots r with
    | none =>
        rw [hslot] at hs ht
        cases hs
        cases ht
        exact h
    | some cell =>
        rw [hslot] at hs ht
        obtain ⟨v, hv, hs⟩ := except_bind_eq_ok.mp hs
        simp only [h.readbackValue hv, ok_bind] at ht
        exact h.setValue (hold cell hslot) hs ht
  · rw [hnone] at hs
    rw [hcell] at ht
    cases hs
    obtain ⟨v, -, ht⟩ := except_bind_eq_ok.mp ht
    exact h.setNew hfirst hne ht

theorem foldlM_refreshReadback {n : Node} {slots slots' : Slots Readback} (h : s.Widens γ t)
    (hw : s.WellFormed) (hn : s.node x = .ok n) (hslots : n.readbacks? = some slots)
    (hadds : ∀ r, γ.Adds (slots r) (slots' r))
    (hs : Readback.all.foldlM (Scene.refreshReadback x slots) s = .ok s')
    (ht : Readback.all.foldlM (Scene.refreshReadback x slots') t = .ok t') : s'.Widens γ t' := by
  have hold : ∀ r cell, slots r = some cell → cell ≠ γ.shared := fun r cell hcell =>
    h.ne_shared_of_shows hw hn (.inl ⟨r, by rw [Node.readback?, hslots]; exact hcell⟩)
  have hsame : List.Forall₂ (· = ·) Readback.all Readback.all :=
    List.forall₂_same.mpr fun _ _ => rfl
  refine foldlM_lockstep (R := Scene.Widens γ) hsame (fun heq h hs ht => ?_) h hs ht
  subst heq
  exact h.refreshReadback (hadds _) (hold _) hs ht

theorem refreshReadbacks (h : s.Widens γ t) (hw : s.WellFormed)
    (hs : s.refreshReadbacks x = .ok s') (ht : t.refreshReadbacks x = .ok t') :
    s'.Widens γ t' := by
  obtain ⟨n, hn, hs⟩ := except_bind_eq_ok.mp hs
  obtain ⟨n', hn', hwidens⟩ := h.node x n hn
  unfold Scene.refreshReadbacks at ht
  rw [hn', ok_bind] at ht
  cases hwidens with
  | part hwidens | pinnedPart hwidens =>
      exact h.foldlM_refreshReadback hw hn rfl hwidens.readbacks hs ht
  | pin =>
      cases hs
      cases ht
      exact h
  | refl =>
      cases hslots : n.readbacks? with
      | none =>
          rw [hslots] at hs ht
          cases hs
          cases ht
          exact h
      | some slots =>
          rw [hslots] at hs ht
          exact h.foldlM_refreshReadback hw hn hslots (fun _ => .inl rfl) hs ht

theorem refreshPin (h : s.Widens γ t) (hw : s.WellFormed) (hs : s.refreshPin x = .ok s')
    (ht : t.refreshPin x = .ok t') : s'.Widens γ t' := by
  obtain ⟨position, hposition, hs⟩ := except_bind_eq_ok.mp hs
  unfold Scene.refreshPin at ht
  rw [h.pinPosition? hposition, ok_bind] at ht
  cases position with
  | none =>
      cases hs
      cases ht
      exact h
  | some world =>
      obtain ⟨n, hn, hs⟩ := except_bind_eq_ok.mp hs
      obtain ⟨n', hn', hwidens⟩ := h.node x n hn
      simp only [hn', ok_bind] at ht
      obtain ⟨u, hu, hs⟩ := except_bind_eq_ok.mp hs
      obtain ⟨u', hu', ht⟩ := except_bind_eq_ok.mp ht
      have hold : ∀ axis cell, n.pinReadback? axis = some cell → cell ≠ γ.shared :=
        fun axis cell hcell => h.ne_shared_of_shows hw hn (.inr ⟨axis, hcell⟩)
      exact (h.setSlotValue (hwidens.pinReadback? .x) (hold .x) hu hu').setSlotValue
        (hwidens.pinReadback? .y) (hold .y) hs ht

theorem compose {part : NodeId} {c c' : PlacementCells} (h : s.Widens γ t)
    (hc : List.Forall₂ γ.Stands c.toList c'.toList)
    (hs : (Step.compose part c).change s = .ok s')
    (ht : (Step.compose part c').change t = .ok t') : s'.Widens γ t' := by
  simp only [PlacementCells.toList, List.forall₂_cons] at hc
  obtain ⟨hcx, hcy, hcScaleX, hcScaleY, hcRotation, -⟩ := hc
  obtain ⟨_, hx, hs⟩ := except_bind_eq_ok.mp hs
  obtain ⟨_, hy, hs⟩ := except_bind_eq_ok.mp hs
  obtain ⟨_, hscaleX, hs⟩ := except_bind_eq_ok.mp hs
  obtain ⟨_, hscaleY, hs⟩ := except_bind_eq_ok.mp hs
  obtain ⟨_, hrotation, hs⟩ := except_bind_eq_ok.mp hs
  simp only [Step.change, h.value hcx hx, h.value hcy hy, h.value hcScaleX hscaleX,
    h.value hcScaleY hscaleY, h.value hcRotation hrotation, ok_bind] at ht
  exact h.mapContainer hs ht

theorem placeContent {part originX originX' originY originY' : NodeId} (h : s.Widens γ t)
    (hcx : γ.Stands originX originX') (hcy : γ.Stands originY originY')
    (hs : (Step.placeContent part originX originY).change s = .ok s')
    (ht : (Step.placeContent part originX' originY').change t = .ok t') : s'.Widens γ t' := by
  obtain ⟨_, hx, hs⟩ := except_bind_eq_ok.mp hs
  obtain ⟨_, hy, hs⟩ := except_bind_eq_ok.mp hs
  simp only [Step.change, h.value hcx hx, h.value hcy hy, ok_bind] at ht
  exact h.mapContainer hs ht

theorem solvePins {part width width' height height' : NodeId} {pins : List PinCells}
    (h : s.Widens γ t) (hcw : γ.Stands width width') (hch : γ.Stands height height')
    (hs : (Step.solvePins part pins width height).change s = .ok s')
    (ht : (Step.solvePins part pins width' height').change t = .ok t') : s'.Widens γ t' := by
  obtain ⟨_, hpins, hs⟩ := except_bind_eq_ok.mp hs
  obtain ⟨_, hwidth, hs⟩ := except_bind_eq_ok.mp hs
  obtain ⟨_, hheight, hs⟩ := except_bind_eq_ok.mp hs
  simp only [Step.change, mapM_eq_ok h.pinPair hpins, h.value hcw hwidth, h.value hch hheight,
    ok_bind] at ht
  exact h.mapContainer hs ht

theorem concatParent {part parent : NodeId} (h : s.Widens γ t)
    (hs : (Step.concatParent part parent).change s = .ok s')
    (ht : (Step.concatParent part parent).change t = .ok t') : s'.Widens γ t' := by
  obtain ⟨n, hn, hs⟩ := except_bind_eq_ok.mp hs
  obtain ⟨n', hn', hwidens⟩ := h.node parent n hn
  simp only [Step.change, hn', ok_bind, hwidens.container?] at ht
  cases hcontainer : n.container? with
  | none =>
      simp only [hcontainer] at hs ht
      cases hs
      cases ht
      exact h
  | some c =>
      simp only [hcontainer] at hs ht
      exact h.mapContainer hs ht

/-- Steps that are alike do the same to both scenes. -/
theorem change {step step' : Step} (h : s.Widens γ t) (hw : s.WellFormed)
    (hbears : s.Bears step.mentions) (hlike : step.Like γ step') (hs : step.change s = .ok s')
    (ht : step'.change t = .ok t') : s'.Widens γ t' := by
  have hcomputed : ∀ x, step.computed? = some x → x ≠ γ.shared := fun x hx =>
    h.ne_shared (Step.computed_isKind hbears hx) (by simp)
  cases hlike with
  | compose part hc => exact h.compose hc hs ht
  | placeContent part hx hy => exact h.placeContent hx hy hs ht
  | solvePins part pins hwidth hheight => exact h.solvePins hwidth hheight hs ht
  | refl =>
      cases step with
      | modify dest op target operand =>
          obtain ⟨_, htarget, hs⟩ := except_bind_eq_ok.mp hs
          obtain ⟨_, hoperand, hs⟩ := except_bind_eq_ok.mp hs
          simp only [Step.change, h.value (.inl rfl) htarget, h.slotValue (.inl rfl) hoperand,
            ok_bind] at ht
          exact h.setValue (hcomputed dest rfl) hs ht
      | assign dest source =>
          obtain ⟨_, hsource, hs⟩ := except_bind_eq_ok.mp hs
          simp only [Step.change, h.value (.inl rfl) hsource, ok_bind] at ht
          exact h.setValue (hcomputed dest rfl) hs ht
      | compose part c => exact h.compose (List.forall₂_same.mpr fun _ _ => .inl rfl) hs ht
      | transform owner motion amount =>
          obtain ⟨_, hamount, hs⟩ := except_bind_eq_ok.mp hs
          simp only [Step.change, h.value (.inl rfl) hamount, ok_bind] at ht
          exact h.mapContainer hs ht
      | concatParent part parent => exact h.concatParent hs ht
      | placeContent part originX originY => exact h.placeContent (.inl rfl) (.inl rfl) hs ht
      | solvePins part pins width height => exact h.solvePins (.inl rfl) (.inl rfl) hs ht
      | showPart part | showPinnedPart part => exact h.refreshReadbacks hw hs ht
      | showPin pin => exact h.refreshPin hw hs ht

end Scene.Widens

/-- The same call, on a scene and on what an accessor made of it. -/
structure DisplayCall.Widens (γ : Widening) (c c' : DisplayCall) : Prop where
  handle : c'.handle = c.handle
  shown : c'.shown = c.shown
  scene : c.scene.Widens γ c'.scene

/-- Two replays that are equally far. -/
structure Frame.Widens (γ : Widening) (f f' : Frame) : Prop where
  scene : f.scene.Widens γ f'.scene
  calls : List.Forall₂ (DisplayCall.Widens γ) f.calls f'.calls

variable {f f' g g' : Frame} {step step' : Step} {list list' : SceneList}

theorem Frame.Widens.present {shown : Shown} (h : f.Widens γ g) (hf : f.present shown = .ok f')
    (hg : g.present shown = .ok g') : f'.Widens γ g' := by
  obtain ⟨n, hn, hf⟩ := except_bind_eq_ok.mp hf
  obtain ⟨n', hn', hwidens⟩ := h.scene.node _ n hn
  unfold Frame.present at hg
  simp only [hn', ok_bind, hwidens.display?] at hg
  cases hdisplay : n.display? with
  | none =>
      simp only [hdisplay] at hf hg
      cases hf
      cases hg
      exact h
  | some handle =>
      simp only [hdisplay] at hf hg
      cases hf
      cases hg
      exact ⟨h.scene, List.rel_append h.calls (.cons ⟨rfl, rfl, h.scene⟩ .nil)⟩

theorem Step.Like.shown? (h : step.Like γ step') : step'.shown? = step.shown? := by
  cases h <;> rfl

theorem Frame.Widens.run (h : f.Widens γ g) (hw : f.scene.WellFormed)
    (hbears : f.scene.Bears step.mentions) (hlike : step.Like γ step') (hf : step.run f = .ok f')
    (hg : step'.run g = .ok g') : f'.Widens γ g' := by
  obtain ⟨s, hs, hf⟩ := except_bind_eq_ok.mp hf
  obtain ⟨t, ht, hg⟩ := except_bind_eq_ok.mp hg
  have hst : (f.withScene s).Widens γ (g.withScene t) :=
    ⟨h.scene.change hw hbears hlike hs ht, h.calls⟩
  rw [hlike.shown?] at hg
  cases hshown : step.shown? with
  | none =>
      rw [hshown] at hf hg
      cases hf
      cases hg
      exact hst
  | some shown =>
      rw [hshown] at hf hg
      exact hst.present hf hg

theorem Frame.Widens.write {v : Float} (h : f.Widens γ g) (hx : x ≠ γ.shared)
    (hf : f.write (x, v) = .ok f') (hg : g.write (x, v) = .ok g') : f'.Widens γ g' := by
  obtain ⟨s, hs, rfl⟩ := except_map_eq_ok.mp hf
  obtain ⟨t, ht, rfl⟩ := except_map_eq_ok.mp hg
  exact ⟨h.scene.setValue hx hs ht, h.calls⟩

theorem Frame.Widens.writes {writes : List (NodeId × Float)} (h : f.Widens γ g)
    (hwrites : ∀ w ∈ writes, w.1 ≠ γ.shared) (hf : writes.foldlM Frame.write f = .ok f')
    (hg : writes.foldlM Frame.write g = .ok g') : f'.Widens γ g' := by
  have hsame : List.Forall₂ (fun a b : NodeId × Float => a = b ∧ a.1 ≠ γ.shared) writes writes :=
    List.forall₂_same.mpr fun w hw => ⟨rfl, hwrites w hw⟩
  refine foldlM_lockstep (R := Frame.Widens γ) hsame (fun hw h hf hg => ?_) h hf hg
  obtain ⟨rfl, hne⟩ := hw
  exact h.write hne hf hg

section Running

open Scene

/-- The values that a list supplies are written to inputs. -/
theorem Frame.Widens.supply {inputs : InputIndex → Option Float}
    {bindings : List (InputBinding NodeId)} (h : f.Widens γ g)
    (hbindings : ∀ b ∈ bindings, f.scene.HasKind (· = .input) b.node)
    (hf : (CommandList.writes inputs bindings).foldlM Frame.write f = .ok f')
    (hg : (CommandList.writes inputs bindings).foldlM Frame.write g = .ok g') :
    f'.Widens γ g' := by
  refine h.writes (fun write hwrite => ?_) hf hg
  obtain ⟨b, hb, v, -, rfl⟩ := Scene.binding_of_mem_writes hwrite
  exact h.scene.ne_shared (hbindings b hb) nofun

mutual

theorem Frame.Widens.runCommand (hw : w.WellFormed) : (c : Command) → w.Bears c.mentions →
    {c' : Command} → c.Like γ c' → {f f' g g' : Frame} → Alike w f.scene → f.Widens γ g →
    c.run f = .ok f' → c'.run g = .ok g' → f'.Widens γ g'
  | .step step, hbears, _, hlike, f, f', g, g', hf, h, hrun, hrun' => by
      obtain ⟨hlike⟩ := hlike
      have hwiring := hf.wiring
      exact h.run (hw.of_wiring hwiring) (hbears.mono (.of_wiring hwiring)) hlike hrun hrun'
  | .replayModel model ⟨root, commands, bindings⟩, hbears, _, hlike, f, f', g, g', hf, h, hrun,
      hrun' => by
      cases hlike with
      | @replayModel _ _ _ commands' _ hlike =>
          obtain ⟨inputs, hinputs, hrun⟩ := except_bind_eq_ok.mp hrun
          rw [Command.run, h.scene.suppliedInputs hinputs, ok_bind] at hrun'
          have hlists : CommandList.Like (Command.Like γ) ⟨root, commands, bindings⟩
              ⟨root, commands', bindings⟩ := ⟨rfl, hlike, rfl⟩
          exact Frame.Widens.runList hw ⟨root, commands, bindings⟩ (bears_cons.mp hbears).2 hlists
            hf h hrun hrun'

theorem Frame.Widens.runList (hw : w.WellFormed) : (list : SceneList) →
    w.Bears (Command.mentionsOf list) → {list' : SceneList} →
    CommandList.Like (Command.Like γ) list list' → {inputs : InputIndex → Option Float} →
    {f f' g g' : Frame} → Alike w f.scene → f.Widens γ g →
    Command.runList inputs f list = .ok f' → Command.runList inputs g list' = .ok g' →
    f'.Widens γ g'
  | ⟨root, commands, bindings⟩, hbears, ⟨_, commands', _⟩, ⟨_, hlike, rfl⟩, inputs, f, f', g, g',
      hf, h, hrun, hrun' => by
      obtain ⟨hbindings, hcommands⟩ := bears_mentionsOf hbears
      obtain ⟨f₁, hwrites, hrun⟩ := except_bind_eq_ok.mp hrun
      obtain ⟨g₁, hwrites', hrun'⟩ := except_bind_eq_ok.mp hrun'
      have hf₁ := hf.trans (Frame.writes_rewrites hwrites).alike
      have hsupplied : f₁.Widens γ g₁ :=
        h.supply (fun b hb => (hbindings b hb).mono (.of_wiring hf.wiring)) hwrites hwrites'
      exact Frame.Widens.runAll hw commands hcommands hlike hf₁ hsupplied hrun hrun'

theorem Frame.Widens.runAll (hw : w.WellFormed) : (cs : List Command) →
    w.Bears (Command.mentionsAll cs) → {cs' : List Command} →
    List.Forall₂ (Command.Like γ) cs cs' → {f f' g g' : Frame} → Alike w f.scene →
    f.Widens γ g → Command.runAll f cs = .ok f' → Command.runAll g cs' = .ok g' → f'.Widens γ g'
  | [], _, _, hlike, f, f', g, g', _, h, hrun, hrun' => by
      cases hlike
      cases hrun
      cases hrun'
      exact h
  | c :: cs, hbears, _, hlike, f, f', g, g', hf, h, hrun, hrun' => by
      cases hlike with
      | cons hfirst hrest =>
          obtain ⟨hc, hcs⟩ := bears_append.mp hbears
          obtain ⟨f₁, hf₁, hrun⟩ := except_bind_eq_ok.mp hrun
          obtain ⟨g₁, hg₁, hrun'⟩ := except_bind_eq_ok.mp hrun'
          have hstart := hf.trans (Command.run_rewrites c hf₁).alike
          exact Frame.Widens.runAll hw cs hcs hrest hstart
            (Frame.Widens.runCommand hw c hc hfirst hf h hf₁ hg₁) hrun hrun'

end

/-- Replaying lists that are alike. -/
theorem Scene.Widens.replay {inputs : InputIndex → Option Float} (h : s.Widens γ t)
    (hw : s.WellFormed) (hbears : s.Bears (Command.mentionsOf list))
    (hlike : CommandList.Like (Command.Like γ) list list') (hf : s.replay list inputs = .ok f)
    (hg : t.replay list' inputs = .ok g) : f.Widens γ g := by
  unfold Scene.replay at hf hg
  rw [← Command.runList_eq_replay] at hf hg
  exact Frame.Widens.runList hw list hbears hlike (Alike.refl s) ⟨h, .nil⟩ hf hg

end Running

end SceneGraph
