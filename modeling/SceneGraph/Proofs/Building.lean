import SceneGraph.Proofs.Coherence
import SceneGraph.Proofs.WellFormed

/-!
Operations keep a scene well-formed.

Every operation develops the scene and keeps all links, provided that it is given handles of
the right kinds; and the handles that it gives out are of the kinds they say.
-/

namespace SceneGraph

namespace Node

variable {n : Node}

theorem develops_fillAttribute (a : PartAttribute) (cell : NodeId) (n : Node) :
    n.Develops (n.fillAttribute a cell) := by
  cases n <;> exact ⟨rfl, List.Subset.refl _, fun _ _ h => h, fun _ _ h => h⟩

theorem develops_fillCoordinate (axis : Axis) (cell : NodeId) (n : Node) :
    n.Develops (n.fillCoordinate axis cell) := by
  cases n <;> exact ⟨rfl, List.Subset.refl _, fun _ _ h => h, fun _ _ h => h⟩

theorem develops_fillDimension (d : Dimension) (cell : NodeId) (n : Node) :
    n.Develops (n.fillDimension d cell) := by
  cases n <;> exact ⟨rfl, List.Subset.refl _, fun _ _ h => h, fun _ _ h => h⟩

theorem develops_attach (slot : PinSlot) (a : Attachment) (n : Node) :
    n.Develops (n.attach slot a) := by
  cases n <;> exact ⟨rfl, List.Subset.refl _, fun _ _ h => h, fun _ _ h => h⟩

theorem develops_fillTarget (slot : PinSlot) (axis : Axis) (cell : NodeId) (n : Node) :
    n.Develops (n.fillTarget slot axis cell) := by
  unfold fillTarget
  cases n.attachment? slot with
  | none => exact .refl n
  | some a => exact develops_attach slot _ n

theorem develops_appendLink (link : NodeId) (n : Node) : n.Develops (n.appendLink link) := by
  cases n <;> exact ⟨rfl, List.Subset.refl _, fun _ _ h => h, fun _ _ h => h⟩

theorem develops_appendTransformation (step : NodeId) (n : Node) :
    n.Develops (n.appendTransformation step) := by
  cases n with
  | part p | pinnedPart p =>
      exact ⟨rfl, List.subset_append_left _ _, fun _ _ h => h, fun _ _ h => h⟩
  | _ => exact .refl _

theorem develops_setParent (parent : Option NodeId) (n : Node) :
    n.Develops (n.setParent parent) := by
  cases n <;> exact ⟨rfl, List.Subset.refl _, fun _ _ h => h, fun _ _ h => h⟩

/-- A slot that was empty may be filled. -/
theorem develops_fillReadback {r : Readback} (hr : n.readback? r = none) (cell : NodeId) :
    n.Develops (n.fillReadback r cell) := by
  have hkeep : ∀ (slots : Slots Readback), slots r = none → ∀ r' other,
      slots r' = some other → slots.fill r cell r' = some other := by
    intro slots hslot r' other hother
    have hne : r' ≠ r := fun heq => by simp [← heq, hother] at hslot
    rw [Slots.fill_of_ne slots hne, hother]
  cases n with
  | part p | pinnedPart p =>
      exact ⟨rfl, List.Subset.refl _, fun r' other h => hkeep p.readbacks hr r' other h,
        fun _ _ h => h⟩
  | _ => exact .refl _

theorem develops_fillPinReadback {axis : Axis} (haxis : n.pinReadback? axis = none)
    (cell : NodeId) : n.Develops (n.fillPinReadback axis cell) := by
  cases n with
  | pin p =>
      refine ⟨rfl, List.Subset.refl _, fun _ _ h => h, fun axis' other h => ?_⟩
      have hslot : p.readbacks axis = none := haxis
      have hother : p.readbacks axis' = some other := h
      have hne : axis' ≠ axis := fun heq => by simp [← heq, hother] at hslot
      exact (Slots.fill_of_ne p.readbacks hne cell).trans hother
  | _ => exact .refl _

end Node

namespace Scene

variable {s t u : Scene} {id cell : NodeId}

/-- A well-formed scene developed out of another one. -/
structure Builds (s t : Scene) : Prop where
  develops : Develops s t
  wellFormed : t.WellFormed

namespace Builds

theorem refl (hs : s.WellFormed) : Builds s s :=
  ⟨.refl s, hs⟩

theorem trans (hst : Builds s t) (htu : Builds t u) : Builds s u :=
  ⟨hst.develops.trans htu.develops, htu.wellFormed⟩

theorem of_wiring (hs : s.WellFormed) (h : t.wiring = s.wiring) : Builds s t :=
  ⟨.of_wiring h, hs.of_wiring h⟩

theorem of_alike (hs : s.WellFormed) (h : Alike s t) : Builds s t :=
  of_wiring hs h.wiring

theorem push (hs : s.WellFormed) {n : Node} (hn : (s.push n).Fits s.count n) :
    Builds s (s.push n) :=
  ⟨.push s n, hs.push hn⟩

theorem update (hs : s.WellFormed) {f : Node → Node} (h : s.update id f = .ok t)
    (hf : ∀ n : Node, n.Develops (f n))
    (hfits : ∀ n, s.node id = .ok n → Develops s t → t.Fits id (f n)) : Builds s t :=
  ⟨.update h fun n _ => hf n, hs.update h (fun n _ => hf n) hfits⟩

/-- A node may be created with a link back to it filled in at once. -/
theorem push_update (hs : s.WellFormed) {n : Node} {f : Node → Node}
    (h : (s.push n).update id f = .ok t) (hid : id < s.count)
    (hf : ∀ n, s.node id = .ok n → n.Develops (f n))
    (hnew : Develops s t → t.Fits s.count n)
    (hfits : ∀ n, s.node id = .ok n → Develops s t → t.Fits id (f n)) : Builds s t := by
  have hnode : (s.push n).node id = s.node id := node_push_of_lt hid n
  have hst : Develops s t :=
    (Develops.push s n).trans (.update h fun n hn => hf n (hnode ▸ hn))
  refine ⟨hst, hs.develop hst fun other n' hn' => ?_⟩
  rcases node_update_eq_ok h hn' with hother | ⟨rfl, n, hn, rfl⟩
  · rcases node_push_eq_ok hother with hold | ⟨rfl, rfl⟩
    · exact Or.inl ⟨n', hold, rfl⟩
    · exact Or.inr (hnew hst)
  · exact Or.inr (hfits n (hnode ▸ hn) hst)

/-- Each round of a loop builds on the scene that the rounds before it left. -/
theorem foldlM {ε α : Type} {f : Scene → α → Except ε Scene} {l : List α} (hs : s.WellFormed)
    (hf : ∀ {u v a}, a ∈ l → Builds s u → f u a = .ok v → Builds u v)
    (h : l.foldlM f s = .ok t) : Builds s t := by
  induction l generalizing s with
  | nil =>
      cases h
      exact .refl hs
  | cons a l ih =>
      rw [List.foldlM_cons] at h
      obtain ⟨u, hu, hrest⟩ := except_bind_eq_ok.mp h
      have hfirst := hf List.mem_cons_self (.refl hs) hu
      refine hfirst.trans (ih hfirst.wellFormed (fun ha hbuilds hv => ?_) hrest)
      exact hf (List.mem_cons_of_mem _ ha) (hfirst.trans hbuilds) hv

end Builds

theorem hasKind_push (s : Scene) {n : Node} {p : NodeKind → Prop} (hp : p n.kind) :
    (s.push n).HasKind p s.count :=
  ⟨n, node_push_self s n, hp⟩

theorem scalar_builds (hs : s.WellFormed) (v : Float) : Builds s (s.scalar v).2 :=
  .push hs trivial

theorem calculated_builds (hs : s.WellFormed) (base : Float) :
    Builds s (s.calculated base).2 ∧
      (s.calculated base).2.IsCalculated (s.calculated base).1 := by
  have hscalar := scalar_builds hs base
  have hbase : (s.scalar base).2.IsNumber s.count := s.hasKind_push trivial
  refine ⟨hscalar.trans (.push hscalar.wellFormed ⟨?_, trivial⟩), hasKind_push _ rfl⟩
  exact hbase.mono (.push _ _)

/-- Filling a slot with a calculated value, or finding it filled. -/
theorem materialize_builds (hs : s.WellFormed) {owner : NodeId} {slot : Node → Option NodeId}
    {fill : NodeId → Node → Node} {base : Float}
    (h : s.materialize owner slot fill base = .ok (cell, t))
    (hslot : ∀ n cell, s.Fits owner n → slot n = some cell → s.IsCalculated cell)
    (hfill : ∀ cell (n : Node), n.Develops (fill cell n))
    (hfits : ∀ n cell, t.Fits owner n → t.IsCalculated cell → t.Fits owner (fill cell n)) :
    Builds s t ∧ t.IsCalculated cell := by
  obtain ⟨n, hn, hrest⟩ := except_bind_eq_ok.mp h
  cases hcell : slot n with
  | some found =>
      rw [hcell] at hrest
      cases hrest
      exact ⟨.refl hs, hslot n cell (hs.fits owner n hn) hcell⟩
  | none =>
      rw [hcell] at hrest
      obtain ⟨u, hu, hr⟩ := except_bind_eq_ok.mp hrest
      cases hr
      obtain ⟨hbuilds, hcalculated⟩ := calculated_builds hs base
      have hupdate : Builds (s.calculated base).2 t :=
        .update hbuilds.wellFormed hu (hfill _) fun n hn hst =>
          hfits n _ ((hbuilds.wellFormed.fits owner n hn).mono hst) (hcalculated.mono hst)
      exact ⟨hbuilds.trans hupdate, hcalculated.mono hupdate.develops⟩

theorem setBaseOf_builds {access : Except OutOfRange (NodeId × Scene)} {v : Float}
    (h : setBaseOf access v = .ok (cell, u))
    (haccess : ∀ cell t, access = .ok (cell, t) → Builds s t ∧ t.IsCalculated cell) :
    Builds s u ∧ u.IsCalculated cell := by
  obtain ⟨⟨found, t⟩, ht, hrest⟩ := except_bind_eq_ok.mp h
  obtain ⟨u', hu, hr⟩ := except_bind_eq_ok.mp hrest
  cases hr
  obtain ⟨hbuilds, hcalculated⟩ := haccess cell t ht
  have hset := Builds.of_alike hbuilds.wellFormed (t.setBaseValue_rewrites cell v u hu).alike
  exact ⟨hbuilds.trans hset, hcalculated.mono hset.develops⟩

theorem partAttribute_builds (hs : s.WellFormed) {a : PartAttribute}
    (h : s.partAttribute id a = .ok (cell, t)) : Builds s t ∧ t.IsCalculated cell := by
  refine materialize_builds hs h ?_ (Node.develops_fillAttribute a) ?_
  · intro n cell hn hcell
    cases n with
    | part p => exact hn.2.1 a cell hcell
    | _ => cases hcell
  · intro n cell hn hcell
    cases n with
    | part p => exact ⟨hn.1, hn.2.1.fill hcell, hn.2.2⟩
    | _ => exact hn

theorem pinCoordinate_builds (hs : s.WellFormed) {axis : Axis}
    (h : s.pinCoordinate id axis = .ok (cell, t)) : Builds s t ∧ t.IsCalculated cell := by
  refine materialize_builds hs h ?_ (Node.develops_fillCoordinate axis) ?_
  · intro n cell hn hcell
    cases n with
    | pin p => exact hn.2.1 axis cell hcell
    | _ => cases hcell
  · intro n cell hn hcell
    cases n with
    | pin p => exact ⟨hn.1, hn.2.1.fill hcell, hn.2.2⟩
    | _ => exact hn

theorem pinnedPartDimension_builds (hs : s.WellFormed) {d : Dimension}
    (h : s.pinnedPartDimension id d = .ok (cell, t)) : Builds s t ∧ t.IsCalculated cell := by
  refine materialize_builds hs h ?_ (Node.develops_fillDimension d) ?_
  · intro n cell hn hcell
    cases n with
    | pinnedPart p => exact hn.2.1 d cell hcell
    | _ => cases hcell
  · intro n cell hn hcell
    cases n with
    | pinnedPart p => exact ⟨hn.1, hn.2.1.fill hcell, hn.2.2⟩
    | _ => exact hn

/-- A pin is attached with calculated cells. -/
theorem Fits.attach {n : Node} (hn : s.Fits id n) (slot : PinSlot) {a : Attachment}
    (ha : s.AttachmentFits a) : s.Fits id (n.attach slot a) := by
  cases n with
  | pinnedPart p =>
      refine ⟨hn.1, hn.2.1, fun i a' ha' => ?_, hn.2.2.2⟩
      by_cases hi : i = slot
      · obtain rfl : a = a' := by simpa [hi] using ha'
        exact ha
      · exact hn.2.2.1 i a' (by simpa [hi] using ha')
  | _ => exact hn

theorem attachment_fits {n : Node} (hn : s.Fits id n) {slot : PinSlot} {a : Attachment}
    (ha : n.attachment? slot = some a) : s.AttachmentFits a := by
  cases n with
  | pinnedPart p => exact hn.2.2.1 slot a ha
  | _ => cases ha

theorem attachPin_builds (hs : s.WellFormed) {slot : PinSlot} {origin : Point Float}
    (h : s.attachPin id slot origin = .ok t) : Builds s t := by
  obtain ⟨n, hn, hrest⟩ := except_bind_eq_ok.mp h
  cases hslot : n.attachment? slot with
  | some a =>
      rw [hslot] at hrest
      cases hrest
      exact .refl hs
  | none =>
      rw [hslot] at hrest
      obtain ⟨hx, hxCalculated⟩ := calculated_builds hs origin.x
      obtain ⟨hy, hyCalculated⟩ := calculated_builds hx.wellFormed origin.y
      refine (hx.trans hy).trans (.update hy.wellFormed hrest (Node.develops_attach slot _) ?_)
      intro n hn hst
      refine Fits.attach ((hy.wellFormed.fits id n hn).mono hst) slot ⟨?_, ?_, ?_⟩
      · exact hxCalculated.mono (hy.develops.trans hst)
      · exact hyCalculated.mono hst
      · intro axis cell haxis
        cases haxis

theorem pinOrigin?_calculated (hs : s.WellFormed) {slot : PinSlot} {axis : Axis}
    (h : s.pinOrigin? id slot axis = .ok (some cell)) : s.IsCalculated cell := by
  obtain ⟨n, hn, hrest⟩ := except_bind_eq_ok.mp h
  cases hslot : n.attachment? slot with
  | none =>
      rw [hslot] at hrest
      cases hrest
  | some a =>
      rw [hslot] at hrest
      cases hrest
      have ha := attachment_fits (hs.fits id n hn) hslot
      cases axis with
      | x => exact ha.originX
      | y => exact ha.originY

theorem pinTarget?_builds (hs : s.WellFormed) {slot : PinSlot} {axis : Axis}
    {cell? : Option NodeId} (h : s.pinTarget? id slot axis = .ok (cell?, t)) :
    Builds s t ∧ ∀ cell, cell? = some cell → t.IsCalculated cell := by
  obtain ⟨n, hn, hrest⟩ := except_bind_eq_ok.mp h
  cases hslot : n.attachment? slot with
  | none =>
      rw [hslot] at hrest
      cases hrest
      exact ⟨.refl hs, fun cell hcell => nomatch hcell⟩
  | some a =>
      rw [hslot] at hrest
      obtain ⟨⟨cell, u⟩, hu, hr⟩ := except_bind_eq_ok.mp hrest
      cases hr
      have hbuilds : Builds s t ∧ t.IsCalculated cell := by
        refine materialize_builds hs hu ?_ (Node.develops_fillTarget slot axis) ?_
        · intro n cell hn hcell
          obtain ⟨a, ha, haxis⟩ := Option.bind_eq_some_iff.mp hcell
          exact (attachment_fits hn ha).target axis cell haxis
        · intro n cell hn hcell
          unfold Node.fillTarget
          cases ha : n.attachment? slot with
          | none => exact hn
          | some a =>
              have hfits := attachment_fits hn ha
              exact hn.attach slot ⟨hfits.originX, hfits.originY, hfits.target.fill hcell⟩
      refine ⟨hbuilds.1, fun other hother => ?_⟩
      cases hother
      exact hbuilds.2

theorem setPinTargetAxis_builds (hs : s.WellFormed) {slot : PinSlot} {axis : Axis} {v : Float}
    (h : s.setPinTargetAxis id slot axis v = .ok u) : Builds s u := by
  obtain ⟨⟨cell?, t⟩, ht, hrest⟩ := except_bind_eq_ok.mp h
  have hbuilds := (pinTarget?_builds hs ht).1
  cases cell? with
  | none =>
      cases hrest
      exact hbuilds
  | some cell =>
      exact hbuilds.trans
        (.of_alike hbuilds.wellFormed (t.setBaseValue_rewrites cell v u hrest).alike)

theorem setPinTarget_builds (hs : s.WellFormed) {slot : PinSlot} {target : Point Float}
    (h : s.setPinTarget id slot target = .ok u) : Builds s u := by
  obtain ⟨t, ht, hu⟩ := except_bind_eq_ok.mp h
  have hx := setPinTargetAxis_builds hs ht
  exact hx.trans (setPinTargetAxis_builds hx.wellFormed hu)

/-- A container may list a motion of its own that it does not list yet. -/
theorem ContainerFits.appendTransformation {c : Container} (hc : s.ContainerFits id c)
    (hst : Develops s t) {step : NodeId} (hnew : s.count ≤ step) {motion : Motion}
    {amount : NodeId} (hstep : t.node step = .ok (.transformation ⟨id, motion, amount⟩)) :
    t.ContainerFits id { c with transformations := c.transformations ++ [step] } := by
  have hct := hc.mono hst
  refine ⟨hct.parent, hct.children, fun k hk => ?_, ?_⟩
  · rcases List.mem_append.mp hk with hk | hk
    · exact hct.transformations k hk
    · obtain rfl := List.mem_singleton.mp hk
      exact ⟨motion, amount, hstep⟩
  · refine List.nodup_append.mpr ⟨hc.nodup, by simp, fun k hk k' hk' => ?_⟩
    obtain rfl := List.mem_singleton.mp hk'
    obtain ⟨motion', amount', hk⟩ := hc.transformations k hk
    exact Nat.ne_of_lt (Nat.lt_of_lt_of_le (lt_count_of_node hk) hnew)

theorem addTransformation_builds (hs : s.WellFormed) {motion : Motion}
    (howner : s.IsContainer id) (h : s.addTransformation id motion = .ok (cell, t)) :
    Builds s t ∧ t.IsCalculated cell := by
  obtain ⟨u, hu, hr⟩ := except_bind_eq_ok.mp h
  cases hr
  have hu : ((s.calculated 0.0).2.push
      (.transformation ⟨id, motion, (s.calculated 0.0).1⟩)).update id
        (Node.appendTransformation (s.calculated 0.0).2.count) = .ok t := hu
  obtain ⟨hbuilds, hcalculated⟩ := calculated_builds hs 0.0
  obtain ⟨n, hn, hkind⟩ := howner.mono hbuilds.develops
  have hlt := lt_count_of_node hn
  have hstep : t.node (s.calculated 0.0).2.count =
      .ok (.transformation ⟨id, motion, (s.calculated 0.0).1⟩) := by
    rw [node_update_of_ne hu (Nat.ne_of_lt hlt).symm, node_push_self]
  have hself : t.node id = .ok (n.appendTransformation (s.calculated 0.0).2.count) := by
    rw [node_update_self hu, node_push_of_lt hlt, hn]
    rfl
  have hmem : (s.calculated 0.0).2.count ∈
      (n.appendTransformation (s.calculated 0.0).2.count).transformations := by
    cases n with
    | part p | pinnedPart p =>
        exact List.mem_append_right p.container.transformations (List.mem_singleton_self _)
    | _ => exact hkind.elim
  have hupdate : Builds (s.calculated 0.0).2 t := by
    refine .push_update hbuilds.wellFormed hu hlt
      (fun n _ => Node.develops_appendTransformation _ n)
      (fun hst => ⟨hcalculated.isNumber.mono hst, _, hself, hmem⟩) fun n' hn' hst => ?_
    have hfits := hbuilds.wellFormed.fits id n' hn'
    have hfitsT := hfits.mono hst
    cases n' with
    | part p | pinnedPart p =>
        exact ⟨hfits.1.appendTransformation hst (Nat.le_refl _) hstep, hfitsT.2⟩
    | _ => exact hfitsT
  exact ⟨hbuilds.trans hupdate, hcalculated.mono hupdate.develops⟩

/-- A cell in a read-back slot carries a number. -/
theorem SlotsShow.isNumber {ι : Type} {slots : Slots ι} (h : s.SlotsShow id slots) {i : ι}
    (hi : slots i = some cell) : s.IsNumber cell := by
  obtain ⟨v, hv⟩ := h.cell i cell hi
  exact ⟨_, hv, trivial⟩

/-- Filling a read-back slot of a node that shows what is put there. -/
theorem push_readback_builds (hs : s.WellFormed) {v : Float} {fill : NodeId → Node → Node}
    (h : (s.push (.scalar v (some id))).update id (fill s.count) = .ok t) {n : Node}
    (hn : s.node id = .ok n) (hdevelops : n.Develops (fill s.count n))
    (hshows : (fill s.count n).Shows s.count)
    (hfits : ∀ cell, (∃ v, t.node cell = .ok (.scalar v (some id))) → s.count ≤ cell →
      Develops s t → t.Fits id (fill cell n)) : Builds s t ∧ t.IsNumber s.count := by
  have hlt := lt_count_of_node hn
  have hcell : t.node s.count = .ok (.scalar v (some id)) := by
    rw [node_update_of_ne h (Nat.ne_of_lt hlt).symm, node_push_self]
  have hself : t.node id = .ok (fill s.count n) := by
    rw [node_update_self h, node_push_of_lt hlt, hn]
    rfl
  refine ⟨.push_update hs h hlt (fun n' hn' => ?_) (fun _ => ⟨_, hself, hshows⟩)
    fun n' hn' hst => ?_, ⟨_, hcell, trivial⟩⟩
  · obtain rfl := node_unique hn hn'
    exact hdevelops
  · obtain rfl := node_unique hn hn'
    exact hfits s.count ⟨v, hcell⟩ (Nat.le_refl _) hst

theorem SlotsShow.fill_new {ι : Type} [DecidableEq ι] {slots : Slots ι}
    (h : s.SlotsShow id slots) (hst : Develops s t)
    (hcell : ∃ v, t.node cell = .ok (.scalar v (some id))) (hnew : s.count ≤ cell) (i : ι) :
    t.SlotsShow id (slots.fill i cell) := by
  obtain ⟨v, hv⟩ := hcell
  refine (h.mono hst).fill hv fun j hj => ?_
  obtain ⟨v', hv'⟩ := h.cell j cell hj
  exact Nat.not_lt.mpr hnew (lt_count_of_node hv')

theorem readback_builds (hs : s.WellFormed) {r : Readback} (howner : s.IsContainer id)
    (h : s.readback id r = .ok (cell, t)) : Builds s t ∧ t.IsNumber cell := by
  obtain ⟨n, hn, hrest⟩ := except_bind_eq_ok.mp h
  obtain ⟨n', hn', hkind⟩ := howner
  obtain rfl := node_unique hn hn'
  have hfits := hs.fits id n hn
  cases hslot : n.readback? r with
  | some found =>
      rw [hslot] at hrest
      cases hrest
      refine ⟨.refl hs, ?_⟩
      cases n with
      | part p => exact SlotsShow.isNumber hfits.2.2 hslot
      | pinnedPart p => exact SlotsShow.isNumber hfits.2.2.2 hslot
      | _ => exact hkind.elim
  | none =>
      rw [hslot] at hrest
      obtain ⟨v, -, hv⟩ := except_bind_eq_ok.mp hrest
      obtain ⟨u, hu, hr⟩ := except_bind_eq_ok.mp hv
      cases hr
      refine push_readback_builds hs hu hn (Node.develops_fillReadback hslot _) (Or.inl ⟨r, ?_⟩)
        fun cell hcell hnew hst => ?_
      · cases n with
        | part p | pinnedPart p => exact Slots.fill_self p.readbacks r _
        | _ => exact hkind.elim
      · have hfitsT := hfits.mono hst
        cases n with
        | part p => exact ⟨hfitsT.1, hfitsT.2.1, hfits.2.2.fill_new hst hcell hnew r⟩
        | pinnedPart p =>
            exact ⟨hfitsT.1, hfitsT.2.1, hfitsT.2.2.1, hfits.2.2.2.fill_new hst hcell hnew r⟩
        | _ => exact hkind.elim

/-- A pin with one more read-back cell. -/
theorem fillPinReadback_builds (hs : s.WellFormed) {axis : Axis} {n : Node}
    (hn : s.node id = .ok n) (hkind : n.kind = .pin) (hslot : n.pinReadback? axis = none)
    (h : (s.push (.scalar 0.0 (some id))).update id (Node.fillPinReadback axis s.count) = .ok t) :
    Builds s t ∧ t.IsNumber s.count := by
  obtain ⟨p, rfl⟩ := Node.exists_pin_of_kind hkind
  have hfits := hs.fits id _ hn
  refine push_readback_builds hs h hn (Node.develops_fillPinReadback hslot _)
    (Or.inr ⟨axis, Slots.fill_self p.readbacks axis _⟩) fun cell hcell hnew hst => ?_
  have hfitsT := hfits.mono hst
  exact ⟨hfitsT.1, hfitsT.2.1, hfits.2.2.fill_new hst hcell hnew axis⟩

theorem pinReadback_builds (hs : s.WellFormed) {axis : Axis} (hpin : s.HasKind (· = .pin) id)
    (h : s.pinReadback id axis = .ok (cell, t)) : Builds s t ∧ t.IsNumber cell := by
  obtain ⟨n, hn, hrest⟩ := except_bind_eq_ok.mp h
  obtain ⟨n', hn', hkind⟩ := hpin
  obtain rfl := node_unique hn hn'
  cases hslot : n.pinReadback? axis with
  | some found =>
      rw [hslot] at hrest
      cases hrest
      obtain ⟨p, rfl⟩ := Node.exists_pin_of_kind hkind
      exact ⟨.refl hs, (hs.fits id _ hn).2.2.isNumber hslot⟩
  | none =>
      rw [hslot] at hrest
      obtain ⟨u, hu, hrest⟩ := except_bind_eq_ok.mp hrest
      obtain ⟨u', hu', hr⟩ := except_bind_eq_ok.mp hrest
      cases hr
      have hbuilds := fillPinReadback_builds hs hn hkind hslot hu
      have hrefresh := Builds.of_alike hbuilds.1.wellFormed (u.refreshPin_rewrites id _ hu').alike
      exact ⟨hbuilds.1.trans hrefresh, hbuilds.2.mono hrefresh.develops⟩

theorem operandCell_builds (hs : s.WellFormed) {operand : Option Operand}
    (hcells : ∀ cell, operand = some (.cell cell) → s.IsNumber cell) :
    Builds s (s.operandCell operand).2 ∧ ∀ cell, (s.operandCell operand).1 = some cell →
      (s.operandCell operand).2.IsNumber cell := by
  match operand with
  | none => exact ⟨.refl hs, fun cell hcell => nomatch hcell⟩
  | some (.cell id) =>
      refine ⟨.refl hs, fun cell hcell => ?_⟩
      cases hcell
      exact hcells id rfl
  | some (.constant v) =>
      refine ⟨scalar_builds hs v, fun cell hcell => ?_⟩
      cases hcell
      exact s.hasKind_push trivial

theorem appendModifier_builds (hs : s.WellFormed) {link : ChainLink}
    (hcells : ∀ cell, link.operand = some (.cell cell) → s.IsNumber cell)
    (h : s.appendModifier id link = .ok t) : Builds s t := by
  obtain ⟨hoperand, hcell⟩ := operandCell_builds hs hcells
  obtain ⟨n, hn, hrest⟩ := except_bind_eq_ok.mp h
  have hfits := hoperand.wellFormed.fits id n hn
  cases n with
  | calculated c =>
      have hlink : Builds (s.operandCell link.operand).2 ((s.operandCell link.operand).2.push
          (.modified ⟨link.op, c.tail, (s.operandCell link.operand).1, 0.0⟩)) := by
        refine .push hoperand.wellFormed ⟨?_, fun cell h => ?_⟩
        · exact (isNumber_tail hfits.1 hfits.2).mono (.push _ _)
        · exact (hcell cell h).mono (.push _ _)
      refine hoperand.trans (hlink.trans (.update hlink.wellFormed hrest
        (Node.develops_appendLink _) fun n' hn' hst => ?_))
      rw [node_push_of_lt (lt_count_of_node hn), hn] at hn'
      cases hn'
      have hdevelops := hlink.develops.trans hst
      obtain ⟨n', hn', hmodified⟩ := hst _ _ (node_push_self _ _)
      obtain ⟨m', rfl, htarget⟩ := hmodified.modified
      exact ⟨hfits.1.mono hdevelops, chained_append (hfits.2.mono hdevelops) hn' htarget⟩
  | _ =>
      cases hrest
      exact hoperand

theorem modify_builds (hs : s.WellFormed) {links : List ChainLink}
    (hcells : ∀ link ∈ links, ∀ cell, link.operand = some (.cell cell) → s.IsNumber cell)
    (h : s.modify id links = .ok t) : Builds s t := by
  refine .foldlM hs (fun hlink hbuilds hv => ?_) h
  refine appendModifier_builds hbuilds.wellFormed (fun cell hcell => ?_) hv
  exact (hcells _ hlink cell hcell).mono hbuilds.develops

theorem Fits.setParent {n : Node} (hn : s.Fits id n) {parent : Option NodeId}
    (hparent : ∀ k, parent = some k → s.IsContainer k) : s.Fits id (n.setParent parent) := by
  cases n with
  | pin p => exact ⟨hparent, hn.2⟩
  | part p | pinnedPart p =>
      exact ⟨⟨hparent, hn.1.children, hn.1.transformations, hn.1.nodup⟩, hn.2⟩
  | _ => exact hn

theorem setParent_builds (hs : s.WellFormed) {parent : Option NodeId}
    (hparent : ∀ k, parent = some k → s.IsContainer k)
    (h : s.update id (Node.setParent parent) = .ok t) : Builds s t := by
  refine .update hs h (Node.develops_setParent parent) fun n hn hst => ?_
  exact ((hs.fits id n hn).mono hst).setParent fun k hk => (hparent k hk).mono hst

/-- The children of a container may be any nodes with a place. -/
theorem mapChildren_builds (hs : s.WellFormed) {f : List NodeId → List NodeId}
    (hf : ∀ l, ∀ k ∈ f l, k ∈ l ∨ s.IsPlaced k)
    (h : s.update id (Node.mapContainer fun c => { c with children := f c.children }) = .ok t) :
    Builds s t := by
  have hfits : ∀ c : Container, t.ContainerFits id c → Develops s t →
      t.ContainerFits id { c with children := f c.children } := by
    intro c hc hst
    refine ⟨hc.parent, fun k hk => ?_, hc.transformations, hc.nodup⟩
    rcases hf c.children k hk with hold | hplaced
    · exact hc.children k hold
    · exact hplaced.mono hst
  refine .update hs h (fun n => ?_) fun n hn hst => ?_
  · cases n <;> exact ⟨rfl, List.Subset.refl _, fun _ _ h => h, fun _ _ h => h⟩
  · have hn := (hs.fits id n hn).mono hst
    cases n with
    | part p | pinnedPart p => exact ⟨hfits p.container hn.1 hst, hn.2⟩
    | _ => exact hn

theorem unlink_builds (hs : s.WellFormed) {parent child : NodeId} {r : Bool × Scene}
    (h : s.unlink parent child = .ok r) : Builds s r.2 := by
  rcases unlink_cases h with ⟨-, -, t, ht, hr⟩ | ⟨-, rfl⟩
  · have herase : Builds s t :=
      mapChildren_builds hs (f := fun l => l.erase child)
        (fun l k hk => Or.inl (List.mem_of_mem_erase hk)) ht
    exact herase.trans (setParent_builds herase.wellFormed (by simp) hr)
  · exact .refl hs

theorem detach_builds (hs : s.WellFormed) {child : NodeId} (h : s.detach child = .ok t) :
    Builds s t := by
  rcases detach_cases h with rfl | ⟨old, r, hr, rfl⟩
  · exact .refl hs
  · exact unlink_builds hs hr

theorem addChild_builds (hs : s.WellFormed) {parent child : NodeId}
    (hparent : s.IsContainer parent) (hchild : s.IsPlaced child)
    (h : s.addChild parent child = .ok t) : Builds s t := by
  obtain ⟨s₁, h₁, h⟩ := except_bind_eq_ok.mp h
  obtain ⟨s₂, h₂, h⟩ := except_bind_eq_ok.mp h
  obtain ⟨s₃, h₃, h⟩ := except_bind_eq_ok.mp h
  cases h
  have hdetach := detach_builds hs h₁
  have hattach : Builds s₁ s₂ := by
    refine setParent_builds hdetach.wellFormed (fun k hk => ?_) h₂
    cases hk
    exact hparent.mono hdetach.develops
  have happend : Builds s₂ s₃ := by
    refine mapChildren_builds hattach.wellFormed (f := fun l => l ++ [child])
      (fun l k hk => ?_) h₃
    refine (List.mem_append.mp hk).imp_right fun hk => ?_
    obtain rfl := List.mem_singleton.mp hk
    exact hchild.mono (hdetach.develops.trans hattach.develops)
  exact (hdetach.trans (hattach.trans happend)).trans (.of_wiring happend.wellFormed rfl)

theorem addChildren_builds (hs : s.WellFormed) {parent : NodeId} {children : List NodeId}
    (hparent : s.IsContainer parent) (hchildren : ∀ child ∈ children, s.IsPlaced child)
    (h : s.addChildren parent children = .ok t) : Builds s t := by
  refine .foldlM hs (fun hchild hbuilds hv => ?_) h
  exact addChild_builds hbuilds.wellFormed (hparent.mono hbuilds.develops)
    ((hchildren _ hchild).mono hbuilds.develops) hv

theorem removeChild_builds (hs : s.WellFormed) {parent child : NodeId} {r : Bool × Scene}
    (h : s.removeChild parent child = .ok r) : Builds s r.2 := by
  obtain ⟨⟨removed, t⟩, ht, hr⟩ := except_bind_eq_ok.mp h
  cases hr
  have hunlink := unlink_builds hs ht
  cases removed
  · exact hunlink
  · exact hunlink.trans (.of_wiring hunlink.wellFormed rfl)

end Scene

open Scene (Builds)

theorem Scene.ContainerFits.empty (s : Scene) (id : NodeId) : s.ContainerFits id {} :=
  ⟨by simp, by simp, by simp, by simp⟩

theorem Scene.SlotsHold.empty {ι : Type} (s : Scene) (p : NodeKind → Prop) :
    s.SlotsHold p (Slots.empty : Slots ι) := by
  simp [SlotsHold]

theorem Scene.SlotsShow.empty {ι : Type} (s : Scene) (id : NodeId) :
    s.SlotsShow id (Slots.empty : Slots ι) :=
  ⟨by simp, by simp⟩

/-- The kinds of nodes that a handle may name. -/
def Handle.Names : Handle → NodeKind → Prop
  | .value _, k => k.IsNumber
  | .calculated _, k => k = .calculated
  | .part _, k => k = .part
  | .model _, k => k = .model
  | .pin _, k => k = .pin
  | .pinnedPart _, k => k = .pinnedPart

/-- The handle names a node of its kind. -/
def Handle.Valid (s : Scene) (h : Handle) : Prop :=
  s.HasKind h.Names h.id

namespace Session

variable {σ τ : Session} {id : NodeId}

/-- A well-formed scene and valid handles. -/
structure Sound (σ : Session) : Prop where
  wellFormed : σ.scene.WellFormed
  handles : ∀ h ∈ σ.handles, h.Valid σ.scene

namespace Sound

variable (hσ : Sound σ)
include hσ

theorem isNumber (h : σ.HasValue id) : σ.scene.IsNumber id := by
  rcases h with h | h
  · exact hσ.handles _ h
  · exact Scene.IsCalculated.isNumber (hσ.handles _ h)

theorem isContainer (h : σ.HasContainer id) : σ.scene.IsContainer id := by
  rcases h with (h | h) | h <;> obtain ⟨n, hn, hk⟩ := hσ.handles _ h
  · exact ⟨n, hn, (show n.kind = .part from hk) ▸ trivial⟩
  · exact ⟨n, hn, (show n.kind = .model from hk) ▸ trivial⟩
  · exact ⟨n, hn, (show n.kind = .pinnedPart from hk) ▸ trivial⟩

theorem isPlaced (h : σ.HasChild id) : σ.scene.IsPlaced id := by
  rcases h with h | h
  · exact (hσ.isContainer h).isPlaced
  · obtain ⟨n, hn, hk⟩ := hσ.handles _ h
    exact ⟨n, hn, Or.inr hk⟩

end Sound

end Session

namespace Operation

open Scene Session

variable {σ : Session} {o : Outcome}

/-- What an operation leaves behind: a well-formed scene and a valid handle. -/
structure Delivers (s : Scene) (o : Outcome) : Prop where
  builds : Builds s o.scene
  handle : ∀ h, o.handle? = some h → h.Valid o.scene

theorem Delivers.of_builds {ε α : Type} {s : Scene} {x : Except ε α} {g : α → Outcome}
    (h : x.toOption.map g = some o) (hx : ∀ a, x = .ok a → Builds s (g a).scene)
    (hnone : ∀ a, (g a).handle? = none) : Delivers s o := by
  obtain ⟨a, ha, rfl⟩ := map_toOption_eq_some.mp h
  refine ⟨hx a ha, fun handle hhandle => ?_⟩
  rw [hnone a] at hhandle
  cases hhandle

theorem Delivers.of_handing {ε : Type} {s : Scene} {x : Except ε (NodeId × Scene)}
    {kind : NodeId → Handle} (h : x.toOption.map (.handing kind) = some o)
    (hx : ∀ cell t, x = .ok (cell, t) → Builds s t ∧ (kind cell).Valid t) : Delivers s o := by
  obtain ⟨⟨cell, t⟩, hr, rfl⟩ := map_toOption_eq_some.mp h
  obtain ⟨hbuilds, hvalid⟩ := hx cell t hr
  refine ⟨hbuilds, fun handle hhandle => ?_⟩
  cases hhandle
  exact hvalid

theorem Delivers.of_push {s : Scene} (hs : s.WellFormed) {n : Node} {kind : NodeId → Handle}
    (hfits : (s.push n).Fits s.count n) (hvalid : (kind s.count).Valid (s.push n)) :
    Delivers s (.handing kind (s.create n)) := by
  refine ⟨.push hs hfits, fun handle hhandle => ?_⟩
  cases hhandle
  exact hvalid

theorem Delivers.of_wiring {s : Scene} (hs : s.WellFormed) (h : o.scene.wiring = s.wiring)
    (hnone : o.handle? = none) : Delivers s o := by
  refine ⟨.of_wiring hs h, fun handle hhandle => ?_⟩
  rw [hnone] at hhandle
  cases hhandle

theorem outcome?_delivers {op : Operation} (hσ : Sound σ) (hallowed : op.Allowed σ)
    (h : op.outcome? σ.scene = some o) : Delivers σ.scene o := by
  have hs := hσ.wellFormed
  cases op with
  | scalar v | input index | part | model | pin | pinnedPart =>
      cases h
      exact .of_push hs (by simp [Fits, ContainerFits.empty, SlotsHold.empty, SlotsShow.empty])
        (hasKind_push _ (by simp [Handle.Names, Node.kind, NodeKind.IsNumber]))
  | calculated base =>
      cases h
      refine ⟨(calculated_builds hs base).1, fun handle hhandle => ?_⟩
      cases hhandle
      exact (calculated_builds hs base).2
  | setValue id v =>
      exact .of_builds h (fun t ht => .of_alike hs (setValue_rewrites _ id v t ht).alike)
        fun _ => rfl
  | setBaseValue id v =>
      exact .of_builds h (fun t ht => .of_alike hs (setBaseValue_rewrites _ id v t ht).alike)
        fun _ => rfl
  | modify id links =>
      refine .of_builds h (fun t ht => modify_builds hs ?_ ht) fun _ => rfl
      exact fun link hlink cell hcell => hσ.isNumber (hallowed.2 link hlink cell hcell)
  | partAttribute id a => exact .of_handing h fun cell t ht => partAttribute_builds hs ht
  | setPartAttribute id a v =>
      exact .of_handing h fun cell t ht =>
        setBaseOf_builds ht fun cell t ht => partAttribute_builds hs ht
  | addTransformation owner motion =>
      exact .of_handing h fun cell t ht =>
        addTransformation_builds hs (hσ.isContainer hallowed) ht
  | readback owner r =>
      exact .of_handing h fun cell t ht => readback_builds hs (hσ.isContainer hallowed) ht
  | pinCoordinate id axis => exact .of_handing h fun cell t ht => pinCoordinate_builds hs ht
  | setPinCoordinate id axis v =>
      exact .of_handing h fun cell t ht =>
        setBaseOf_builds ht fun cell t ht => pinCoordinate_builds hs ht
  | pinReadback id axis =>
      exact .of_handing h fun cell t ht => pinReadback_builds hs (hσ.handles _ hallowed) ht
  | pinnedPartDimension id d =>
      exact .of_handing h fun cell t ht => pinnedPartDimension_builds hs ht
  | setPinnedPartDimension id d v =>
      exact .of_handing h fun cell t ht =>
        setBaseOf_builds ht fun cell t ht => pinnedPartDimension_builds hs ht
  | attachPin id slot origin =>
      exact .of_builds h (fun t ht => attachPin_builds hs ht) fun _ => rfl
  | pinOrigin id slot axis =>
      obtain ⟨cell?, hcell, rfl⟩ := map_toOption_eq_some.mp h
      refine ⟨.refl hs, fun handle hhandle => ?_⟩
      obtain ⟨cell, rfl, rfl⟩ := Option.map_eq_some_iff.mp hhandle
      exact pinOrigin?_calculated hs hcell
  | pinTarget id slot axis =>
      obtain ⟨⟨cell?, t⟩, ht, rfl⟩ := map_toOption_eq_some.mp h
      obtain ⟨hbuilds, hcalculated⟩ := pinTarget?_builds hs ht
      refine ⟨hbuilds, fun handle hhandle => ?_⟩
      obtain ⟨cell, rfl, rfl⟩ := Option.map_eq_some_iff.mp hhandle
      exact hcalculated cell rfl
  | setPinTarget id slot target =>
      exact .of_builds h (fun t ht => setPinTarget_builds hs ht) fun _ => rfl
  | addChild parent child =>
      refine .of_builds h (fun t ht => ?_) fun _ => rfl
      exact addChild_builds hs (hσ.isContainer hallowed.1) (hσ.isPlaced hallowed.2) ht
  | addChildren parent children =>
      refine .of_builds h (fun t ht => ?_) fun _ => rfl
      exact addChildren_builds hs (hσ.isContainer hallowed.1)
        (fun child hchild => hσ.isPlaced (hallowed.2 child hchild)) ht
  | removeChild parent child =>
      exact .of_builds h (fun r hr => removeChild_builds hs hr) fun _ => rfl
  | setDisplay id handle =>
      exact .of_builds h (fun t ht => .of_alike hs (setDisplay_alike ht))
        fun _ => rfl
  | setSource id index source =>
      exact .of_builds h (fun t ht => .of_wiring hs (setSource_wiring ht)) fun _ => rfl
  | compile root =>
      obtain rfl := outcome?_compile h
      exact .of_wiring hs rfl rfl
  | compileModel id =>
      have hrenews := outcome?_compileModel h
      exact .of_wiring hs hrenews.wiring hrenews.handle
  | renderModel id =>
      have hrenews := outcome?_renderModel h
      exact .of_wiring hs hrenews.wiring hrenews.handle
  | renderList list inputs =>
      exact .of_builds h (fun f hf => .of_alike hs (replay_rewrites hf).alike) fun _ => rfl

end Operation

namespace Session

open Operation

variable {σ τ : Session}

theorem sound_start (defaultSize : Float) : Sound (start defaultSize) where
  wellFormed := Scene.wellFormed_empty defaultSize
  handles := by simp [start]

theorem Sound.next (hσ : Sound σ) (h : Next σ τ) :
    Sound τ ∧ σ.scene.Develops τ.scene := by
  obtain ⟨op, hallowed, hperform⟩ := h
  obtain ⟨o, ho, rfl⟩ := perform_eq_some hperform
  have hdelivers := outcome?_delivers hσ hallowed ho
  refine ⟨⟨hdelivers.builds.wellFormed, fun handle hhandle => ?_⟩, hdelivers.builds.develops⟩
  rcases List.mem_append.mp hhandle with hnew | hold
  · exact hdelivers.handle handle (Option.mem_toList.mp hnew)
  · exact (hσ.handles handle hold).mono hdelivers.builds.develops

/-- Every scene that is used through its operations alone is well-formed. -/
theorem Reachable.sound (h : Reachable σ) : Sound σ := by
  obtain ⟨defaultSize, hrun⟩ := h
  induction hrun with
  | refl => exact sound_start defaultSize
  | tail _ hnext ih => exact (ih.next hnext).1

end Session

end SceneGraph
