import SceneGraph.Proofs.Arena

/-!
Which nodes were made for which slots.

A calculated value has a cell of its own for its base; an attribute, once it is asked for, has
a calculated value of its own; and so on.  Main statement: no node is made for two slots, and
none of the shared cells is made for any (`Session.Reachable.separate`).

All of it comes from `Adds`: whatever is added holds only nodes that are added along with it,
each of them once.
-/

namespace SceneGraph

/-- A node that stores another one in a certain role. -/
structure Holding where
  owner : NodeId
  role : Role
  cell : NodeId
  deriving DecidableEq

/-- Nodes are made for this role.  Only an operand may also be a cell that was there before. -/
def Role.IsOwning : Role → Prop
  | .requirement | .target | .owner | .parent | .child _ | .source _ => False
  | _ => True

def CellSlot.role : CellSlot → Role
  | .attribute a => .attribute a
  | .coordinate axis => .coordinate axis
  | .dimension d => .dimension d
  | .target slot axis => .pinTarget slot axis

theorem getElem?_concat_of_ne {α : Type} {l : List α} {a : α} {k : Nat} (h : k ≠ l.length) :
    (l ++ [a])[k]? = l[k]? := by
  rcases Nat.lt_or_gt_of_ne h with hlt | hgt
  · exact List.getElem?_append_left hlt
  · have hlength : (l ++ [a]).length ≤ k := by
      rw [List.length_append, List.length_singleton]
      exact hgt
    rw [List.getElem?_eq_none hlength, List.getElem?_eq_none hgt.le]

namespace Node

variable {n n' : Node} {role : Role} {cell c : NodeId}

theorem held?_wiring (h : role.IsOwning) (n : Node) : n.wiring.held? role = n.held? role := by
  cases role with
  | requirement | target | owner | parent | child | source => exact h.elim
  | _ => cases n <;> rfl

theorem held?_unplaced (h : role.IsOwning) (n : Node) : n.unplaced.held? role = n.held? role := by
  cases role with
  | requirement | target | owner | parent | child | source => exact h.elim
  | _ => cases n <;> rfl

theorem held?_attach_of_ne {slot : PinSlot} {a : Attachment}
    (horigin : ∀ axis, role ≠ .origin slot axis) (htarget : ∀ axis, role ≠ .pinTarget slot axis)
    (n : Node) : (n.attach slot a).held? role = n.held? role := by
  cases n with
  | pinnedPart p =>
      have hslot : ∀ slot', slot' ≠ slot →
          ((pinnedPart p).attach slot a).attachment? slot' = p.pins slot' :=
        fun slot' hne => if_neg hne
      cases role with
      | origin slot' axis =>
          have hne : slot' ≠ slot := by
            rintro rfl
            exact horigin axis rfl
          exact congrArg (Option.map fun a => a.origin axis) (hslot slot' hne)
      | pinTarget slot' axis =>
          have hne : slot' ≠ slot := by
            rintro rfl
            exact htarget axis rfl
          exact congrArg (Option.bind · fun a => a.target axis) (hslot slot' hne)
      | _ => rfl
  | _ => rfl

theorem held?_fillTarget_of_ne {slot : PinSlot} {axis : Axis} (h : role ≠ .pinTarget slot axis)
    (cell : NodeId) (n : Node) : (n.fillTarget slot axis cell).held? role = n.held? role := by
  unfold fillTarget
  cases hslot : n.attachment? slot with
  | none => rfl
  | some a =>
      cases n with
      | pinnedPart p =>
          have hself : ∀ a', ((pinnedPart p).attach slot a').attachment? slot = some a' :=
            fun a' => if_pos rfl
          by_cases horigin : ∃ axis', role = .origin slot axis'
          · obtain ⟨axis', rfl⟩ := horigin
            simp only [held?, hself, hslot, Option.map_some]
            cases axis' <;> rfl
          by_cases htarget : ∃ axis', role = .pinTarget slot axis'
          · obtain ⟨axis', rfl⟩ := htarget
            have hne : axis' ≠ axis := by
              rintro rfl
              exact h rfl
            simp only [held?, target?, hself, hslot, Option.bind_some]
            exact a.target.fill_of_ne hne cell
          exact held?_attach_of_ne (fun axis' heq => horigin ⟨axis', heq⟩)
            (fun axis' heq => htarget ⟨axis', heq⟩) _
      | _ => rfl

theorem target?_fillTarget {slot : PinSlot} {axis : Axis} {a : Attachment}
    (h : n.attachment? slot = some a) (cell : NodeId) :
    (n.fillTarget slot axis cell).target? slot axis = some cell := by
  unfold fillTarget
  rw [h]
  cases n with
  | pinnedPart p => simp [target?, attach, attachment?]
  | _ => cases h

/-- A node holds all that it held before, and beyond that at most what is listed. -/
structure Gains (n n' : Node) (added : List (Role × NodeId)) : Prop where
  kept : ∀ role cell, n.held? role = some cell → n'.held? role = some cell
  gained : ∀ role cell, n'.held? role = some cell →
    n.held? role = some cell ∨ (role, cell) ∈ added

theorem Gains.refl (n : Node) : Gains n n [] :=
  ⟨fun _ _ h => h, fun _ _ h => .inl h⟩

/-- One slot was filled that was empty. -/
theorem Gains.fill (hothers : ∀ other, other ≠ role → n'.held? other = n.held? other)
    (hempty : n.held? role = none) (hcell : ∀ c, n'.held? role = some c → c = cell) :
    Gains n n' [(role, cell)] := by
  constructor
  · intro other c hc
    have hne : other ≠ role := by
      rintro rfl
      rw [hempty] at hc
      cases hc
    rwa [hothers other hne]
  · intro other c hc
    by_cases heq : other = role
    · subst heq
      exact .inr (by rw [hcell c hc]; exact List.mem_singleton_self _)
    · exact .inl (hothers other heq ▸ hc)

end Node

namespace CellSlot

variable {n : Node} {role : Role} {cell c : NodeId}

theorem held?_role (slot : CellSlot) (n : Node) : n.held? slot.role = slot.cell? n := by
  cases slot <;> rfl

theorem held?_fill_of_ne {slot : CellSlot} (h : role ≠ slot.role) (cell : NodeId) (n : Node) :
    (slot.fill cell n).held? role = n.held? role := by
  cases slot with
  | target slot axis => exact n.held?_fillTarget_of_ne h cell
  | coordinate axis =>
      cases n with
      | pin p =>
          cases role with
          | coordinate axis' =>
              exact p.coordinates.fill_of_ne (fun heq => h (congrArg Role.coordinate heq)) cell
          | _ => rfl
      | _ => rfl
  | dimension d =>
      cases n with
      | pinnedPart p =>
          cases role with
          | dimension d' =>
              exact p.size.fill_of_ne (fun heq => h (congrArg Role.dimension heq)) cell
          | _ => rfl
      | _ => rfl
  | _ =>
      cases n with
      | part p =>
          cases role with
          | «attribute» a' =>
              exact p.attributes.fill_of_ne (fun heq => h (congrArg Role.attribute heq)) cell
          | _ => rfl
      | _ => rfl

/-- A node that has no such slot stays as it is. -/
theorem cell?_fill (slot : CellSlot) (cell : NodeId) (n : Node) :
    slot.cell? (slot.fill cell n) = some cell ∨ slot.fill cell n = n := by
  match slot with
  | .attribute a =>
      cases n with
      | part p => exact .inl (p.attributes.fill_self a cell)
      | _ => exact .inr rfl
  | .coordinate axis =>
      cases n with
      | pin p => exact .inl (p.coordinates.fill_self axis cell)
      | _ => exact .inr rfl
  | .dimension d =>
      cases n with
      | pinnedPart p => exact .inl (p.size.fill_self d cell)
      | _ => exact .inr rfl
  | .target pin axis =>
      cases hpin : n.attachment? pin with
      | none =>
          right
          simp only [fill, Node.fillTarget, hpin]
      | some a => exact .inl (Node.target?_fillTarget hpin cell)

theorem gains_fill {slot : CellSlot} (hempty : slot.cell? n = none) (cell : NodeId) :
    n.Gains (slot.fill cell n) [(slot.role, cell)] := by
  apply Node.Gains.fill
  · exact fun role hrole => held?_fill_of_ne hrole cell n
  · rw [held?_role, hempty]
  · intro c hc
    rw [held?_role] at hc
    rcases slot.cell?_fill cell n with hfilled | hsame
    · exact Option.some.inj (hc.symm.trans hfilled)
    · rw [hsame, hempty] at hc
      cases hc

end CellSlot

namespace Node

variable {n : Node} {cell link step : NodeId}

theorem gains_appendLink (c : Calculated) (link : NodeId) :
    Gains (.calculated c) (appendLink link (.calculated c)) [(.link c.modifiers.length, link)] := by
  apply Gains.fill
  · intro role hrole
    cases role with
    | link k =>
        have hk : k ≠ c.modifiers.length := fun heq => hrole (congrArg Role.link heq)
        exact getElem?_concat_of_ne hk
    | _ => rfl
  · exact List.getElem?_eq_none (Nat.le_refl _)
  · intro c' hc'
    exact (Option.some.inj (hc'.symm.trans List.getElem?_concat_length))

theorem gains_appendTransformation (step : NodeId) (n : Node) :
    n.Gains (n.appendTransformation step) [(.motion n.transformations.length, step)] := by
  have hlist : (n.appendTransformation step).transformations = n.transformations ++ [step] ∨
      n.appendTransformation step = n := by
    cases n with
    | part | pinnedPart => exact .inl rfl
    | _ => exact .inr rfl
  rcases hlist with hlist | hsame
  · apply Gains.fill
    · intro role hrole
      cases role with
      | motion k =>
          have hk : k ≠ n.transformations.length := fun heq => hrole (congrArg Role.motion heq)
          show (n.appendTransformation step).transformations[k]? = n.transformations[k]?
          rw [hlist, getElem?_concat_of_ne hk]
      | _ => cases n <;> rfl
    · exact List.getElem?_eq_none (Nat.le_refl _)
    · intro c hc
      have hc : (n.appendTransformation step).transformations[n.transformations.length]? =
        some c := hc
      rw [hlist, List.getElem?_concat_length] at hc
      exact (Option.some.inj hc).symm
  · rw [hsame]
    exact ⟨fun _ _ h => h, fun _ _ h => .inl h⟩

theorem gains_fillReadback {r : Readback} (hempty : n.readback? r = none) (cell : NodeId) :
    n.Gains (n.fillReadback r cell) [(.readback r, cell)] := by
  apply Gains.fill
  · intro role hrole
    cases role with
    | readback r' =>
        have hne : r' ≠ r := fun heq => hrole (congrArg Role.readback heq)
        cases n with
        | part p | pinnedPart p => exact p.readbacks.fill_of_ne hne cell
        | _ => rfl
    | _ => cases n <;> rfl
  · exact hempty
  · intro c hc
    cases n with
    | part p | pinnedPart p =>
        exact (Option.some.inj (hc.symm.trans (p.readbacks.fill_self r cell)))
    | _ => cases hc

theorem gains_fillPinReadback {axis : Axis} (hempty : n.pinReadback? axis = none)
    (cell : NodeId) : n.Gains (n.fillPinReadback axis cell) [(.pinReadback axis, cell)] := by
  apply Gains.fill
  · intro role hrole
    cases role with
    | pinReadback axis' =>
        have hne : axis' ≠ axis := fun heq => hrole (congrArg Role.pinReadback heq)
        cases n with
        | pin p => exact p.readbacks.fill_of_ne hne cell
        | _ => rfl
    | _ => cases n <;> rfl
  · exact hempty
  · intro c hc
    cases n with
    | pin p => exact (Option.some.inj (hc.symm.trans (p.readbacks.fill_self axis cell)))
    | _ => cases hc

theorem gains_attach {slot : PinSlot} (hempty : n.attachment? slot = none) (x y : NodeId) :
    n.Gains (n.attach slot { originX := x, originY := y })
      [(.origin slot .x, x), (.origin slot .y, y)] := by
  have hnone : ∀ axis, n.held? (.origin slot axis) = none ∧
      n.held? (.pinTarget slot axis) = none := by
    intro axis
    simp [held?, target?, hempty]
  constructor
  · intro role c hc
    rw [held?_attach_of_ne]
    · exact hc
    · rintro axis rfl
      rw [(hnone axis).1] at hc
      cases hc
    · rintro axis rfl
      rw [(hnone axis).2] at hc
      cases hc
  · intro role c hc
    by_cases horigin : ∃ axis, role = .origin slot axis
    · obtain ⟨axis, rfl⟩ := horigin
      cases n with
      | pinnedPart p =>
          right
          cases axis <;> simpa [held?, attach, attachment?, Attachment.origin, eq_comm] using hc
      | _ => cases hc
    by_cases htarget : ∃ axis, role = .pinTarget slot axis
    · obtain ⟨axis, rfl⟩ := htarget
      cases n with
      | pinnedPart p => simp [held?, attach, attachment?, target?] at hc
      | _ => cases hc
    left
    rwa [held?_attach_of_ne (fun axis heq => horigin ⟨axis, heq⟩)
      (fun axis heq => htarget ⟨axis, heq⟩)] at hc

end Node

namespace Scene

variable {named named' : NodeId → Prop} {s t u : Scene} {owner : NodeId} {f : Node → Node}
  {news : List Node} {x y : Holding}

/-- A slot of the scene holds a node. -/
def Holds (s : Scene) (x : Holding) : Prop :=
  ∃ n, s.node x.owner = .ok n ∧ n.held? x.role = some x.cell

/-- A slot holds a node that was made for it.  An operand that no handle names is a constant,
and constants are made for the links that use them. -/
structure Owns (named : NodeId → Prop) (s : Scene) (x : Holding) : Prop where
  holds : s.Holds x
  isOwning : x.role.IsOwning
  constant : x.role = .operand → ¬ named x.cell

theorem Holds.owns (h : s.Holds x) (hrole : x.role.IsOwning) (hne : x.role ≠ .operand) :
    s.Owns named x :=
  ⟨h, hrole, fun heq => (hne heq).elim⟩

theorem Owns.anti (h : s.Owns named' x) (hnamed : ∀ id, named id → named' id) :
    s.Owns named x :=
  ⟨h.holds, h.isOwning, fun hrole hcell => h.constant hrole (hnamed _ hcell)⟩

/-- What a new node owns is among some holdings. -/
def Carries (named : NodeId → Prop) (id : NodeId) (n : Node) (fresh : List Holding) : Prop :=
  ∀ role cell, role.IsOwning → (role = .operand → ¬ named cell) → n.held? role = some cell →
    ⟨id, role, cell⟩ ∈ fresh

/-- The same for new nodes in a row. -/
def CarriesAll (named : NodeId → Prop) (id : NodeId) : List Node → List Holding → Prop
  | [], _ => True
  | n :: rest, fresh => Carries named id n fresh ∧ CarriesAll named (id + 1) rest fresh

theorem CarriesAll.getElem {id : NodeId} {fresh : List Holding}
    (h : CarriesAll named id news fresh) {i : Nat} {n : Node} (hn : news[i]? = some n) :
    Carries named (id + i) n fresh := by
  induction news generalizing id i with
  | nil => cases hn
  | cons first news ih =>
      cases i with
      | zero =>
          obtain rfl := Option.some.inj hn
          exact h.1
      | succ i =>
          have hrest := ih h.2 hn
          rwa [Nat.add_right_comm] at hrest

theorem carries_scalar (id : NodeId) (v : Float) (requirement : Option NodeId)
    (fresh : List Holding) : Carries named id (.scalar v requirement) fresh := by
  intro role cell hrole _ hheld
  cases role with
  | requirement => exact hrole.elim
  | _ => cases hheld

theorem carries_blank {n : Node} (hn : n.Blank) (id : NodeId) (fresh : List Holding) :
    Carries named id n fresh := by
  intro role cell hrole _ hheld
  cases role with
  | requirement | source => exact hrole.elim
  | _ => cases hn <;> cases hheld

theorem carries_calculated {id base : NodeId} {v : Float} {fresh : List Holding}
    (h : ⟨id, .base, base⟩ ∈ fresh) : Carries named id (.calculated ⟨base, v, []⟩) fresh := by
  intro role cell _ _ hheld
  cases role with
  | base =>
      obtain rfl := Option.some.inj hheld
      exact h
  | _ => cases hheld

theorem carries_transformation {id : NodeId} {step : Transformation} {fresh : List Holding}
    (h : ⟨id, .amount, step.amount⟩ ∈ fresh) : Carries named id (.transformation step) fresh := by
  intro role cell hrole _ hheld
  cases role with
  | amount =>
      obtain rfl := Option.some.inj hheld
      exact h
  | owner => exact hrole.elim
  | _ => cases hheld

theorem carries_modified {id : NodeId} {m : Modified} {fresh : List Holding}
    (h : ∀ cell, m.operand = some cell → ¬ named cell → ⟨id, .operand, cell⟩ ∈ fresh) :
    Carries named id (.modified m) fresh := by
  intro role cell hrole hconstant hheld
  cases role with
  | operand => exact h cell hheld (hconstant rfl)
  | target => exact hrole.elim
  | _ => cases hheld

/-- All slots keep what they hold, and nodes were made for one slot each. -/
structure Furnishes (named : NodeId → Prop) (s t : Scene) : Prop where
  count : s.count ≤ t.count
  kept : ∀ x : Holding, x.role.IsOwning → s.Holds x → t.Holds x
  made : ∃ made : List Holding, (made.map Holding.cell).Nodup ∧
    (∀ x ∈ made, s.count ≤ x.cell ∧ x.cell < t.count) ∧
    ∀ x, t.Owns named x → s.Owns named x ∨ x ∈ made

theorem Extends.furnishes (h : s.Extends t owner f news) (fresh : List Holding)
    (added : List (Role × NodeId)) (hf : ∀ n, s.node owner = .ok n → n.Gains (f n) added)
    (hnews : CarriesAll named s.count news fresh)
    (hnodup : ((fresh.map Holding.cell) ++ added.map Prod.snd).Nodup)
    (hrange : ∀ cell ∈ (fresh.map Holding.cell) ++ added.map Prod.snd,
      s.count ≤ cell ∧ cell < s.count + news.length) : Furnishes named s t := by
  have hmade : (fresh ++ added.map fun a => (⟨owner, a.1, a.2⟩ : Holding)).map Holding.cell =
      fresh.map Holding.cell ++ added.map Prod.snd := by
    simp [Function.comp_def]
  refine ⟨?_, fun x _ hx => ?_, _, hmade ▸ hnodup, fun x hx => ?_, fun x hx => ?_⟩
  · rw [h.count]
    exact Nat.le_add_right _ _
  · obtain ⟨m, hm, hheld⟩ := hx
    refine ⟨_, h.old x.owner m hm, ?_⟩
    split
    · next heq =>
        exact (hf m (heq ▸ hm)).kept x.role x.cell hheld
    · exact hheld
  · rw [h.count]
    exact hrange x.cell (hmade ▸ List.mem_map_of_mem hx)
  · obtain ⟨⟨n', hn', hheld⟩, hrole, hconstant⟩ := hx
    rcases h.node_cases hn' with ⟨m, hm, rfl⟩ | ⟨i, hi, hnew⟩
    · by_cases heq : x.owner = owner
      · rw [if_pos heq] at hheld
        rcases (hf m (heq ▸ hm)).gained x.role x.cell hheld with hold | hadded
        · exact .inl ⟨⟨m, hm, hold⟩, hrole, hconstant⟩
        · refine .inr (List.mem_append_right _ (List.mem_map.mpr ⟨_, hadded, ?_⟩))
          rw [← heq]
      · rw [if_neg heq] at hheld
        exact .inl ⟨⟨m, hm, hheld⟩, hrole, hconstant⟩
    · have hmem := hnews.getElem hnew x.role x.cell hrole hconstant hheld
      rw [← hi] at hmem
      exact .inr (List.mem_append_left _ hmem)

/-- Whatever is added holds only nodes that are added with it, each of them once. -/
theorem Adds.furnishes (h : Adds named s owner f news) (hextends : s.Extends t owner f news) :
    Furnishes named s t := by
  have hself : ∀ n, s.node owner = .ok n → n.Gains (id n) [] := fun n _ => .refl n
  cases h with
  | blank hblank =>
      exact hextends.furnishes [] [] hself ⟨carries_blank hblank _ _, trivial⟩ (by simp) (by simp)
  | calculated base =>
      refine hextends.furnishes [⟨s.count + 1, .base, s.count⟩] [] hself
        ⟨carries_scalar _ _ _ _, carries_calculated ?_, trivial⟩ ?_ ?_
      · simp
      · simp
      · simp [cellNodes]
  | @cell n slot base howner hempty =>
      refine hextends.furnishes [⟨s.count + 1, .base, s.count⟩] [(slot.role, s.count + 1)]
        (fun n' hn' => ?_)
        ⟨carries_scalar _ _ _ _, carries_calculated ?_, trivial⟩ ?_ ?_
      · obtain rfl := node_unique howner hn'
        exact CellSlot.gains_fill hempty _
      · simp
      · simp
      · simp [cellNodes]
  | @transformation n motion howner =>
      refine hextends.furnishes
        [⟨s.count + 1, .base, s.count⟩, ⟨s.count + 2, .amount, s.count + 1⟩]
        [(.motion n.transformations.length, s.count + 2)] (fun n' hn' => ?_)
        ⟨carries_scalar _ _ _ _, carries_calculated ?_, carries_transformation ?_, trivial⟩ ?_ ?_
      · obtain rfl := node_unique howner hn'
        exact n.gains_appendTransformation _
      · simp
      · simp
      · simp
      · simp [cellNodes]
  | @attach n slot origin howner hempty =>
      refine hextends.furnishes
        [⟨s.count + 1, .base, s.count⟩, ⟨s.count + 3, .base, s.count + 2⟩]
        [(.origin slot .x, s.count + 1), (.origin slot .y, s.count + 3)]
        (fun n' hn' => ?_)
        ⟨carries_scalar _ _ _ _, carries_calculated ?_, carries_scalar _ _ _ _,
          carries_calculated ?_, trivial⟩ ?_ ?_
      · obtain rfl := node_unique howner hn'
        exact Node.gains_attach hempty _ _
      · simp
      · simp
      · simp
      · simp [cellNodes]
  | @readback n r v howner hempty =>
      refine hextends.furnishes [] [(.readback r, s.count)]
        (fun n' hn' => ?_) ⟨carries_scalar _ _ _ _, trivial⟩ ?_ ?_
      · obtain rfl := node_unique howner hn'
        exact Node.gains_fillReadback hempty _
      · simp
      · simp
  | @pinReadback n axis howner hempty =>
      refine hextends.furnishes [] [(.pinReadback axis, s.count)]
        (fun n' hn' => ?_) ⟨carries_scalar _ _ _ _, trivial⟩ ?_ ?_
      · obtain rfl := node_unique howner hn'
        exact Node.gains_fillPinReadback hempty _
      · simp
      · simp
  | @link c op operand howner hop hoperand =>
      refine hextends.furnishes [] [(.link c.modifiers.length, s.count)]
        (fun n' hn' => ?_) ⟨carries_modified fun cell hcell hnot => ?_, trivial⟩ ?_ ?_
      · obtain rfl := node_unique howner hn'
        exact Node.gains_appendLink c _
      · exact (hnot (hoperand cell hcell)).elim
      · simp
      · simp
  | @linkConstant c op v howner hop =>
      refine hextends.furnishes [⟨s.count + 1, .operand, s.count⟩]
        [(.link c.modifiers.length, s.count + 1)] (fun n' hn' => ?_)
        ⟨carries_scalar _ _ _ _, carries_modified fun cell hcell _ => ?_, trivial⟩ ?_ ?_
      · obtain rfl := node_unique howner hn'
        exact Node.gains_appendLink c _
      · obtain rfl := Option.some.inj hcell
        exact List.mem_singleton_self _
      · simp
      · simp

/-- Slots hold in the second scene what they hold in the first. -/
theorem Furnishes.of_node (hcount : t.count = s.count)
    (hst : ∀ id n, s.node id = .ok n → ∃ n', t.node id = .ok n' ∧
      ∀ role : Role, role.IsOwning → n'.held? role = n.held? role) : Furnishes named s t := by
  refine ⟨hcount.ge, fun x hrole ⟨n, hn, hheld⟩ => ?_, [], List.nodup_nil, nofun, fun x hx => ?_⟩
  · obtain ⟨n', hn', heq⟩ := hst x.owner n hn
    exact ⟨n', hn', (heq x.role hrole).trans hheld⟩
  · obtain ⟨⟨n', hn', hheld⟩, hrole, hconstant⟩ := hx
    obtain ⟨n, hn⟩ := node_of_lt_count (hcount ▸ lt_count_of_node hn')
    obtain ⟨n'', hn'', heq⟩ := hst x.owner n hn
    obtain rfl := node_unique hn' hn''
    exact .inl ⟨⟨n, hn, (heq x.role hrole).symm.trans hheld⟩, hrole, hconstant⟩

theorem Change.furnishes (h : Change named s t) : Furnishes named s t := by
  cases h with
  | add hadds hextends => exact hadds.furnishes hextends
  | inPlace hwiring =>
      apply Furnishes.of_node (count_eq_of_wiring hwiring)
      intro id n hn
      obtain ⟨n', hn', heq⟩ := node_of_wiring hwiring hn
      refine ⟨n', hn', fun role hrole => ?_⟩
      rw [← n'.held?_wiring hrole, heq, n.held?_wiring hrole]

theorem Rearranged.count_eq (h : Rearranged s t) : t.count = s.count := by
  have hsize := congrArg Array.size h
  simpa [count] using hsize

theorem Rearranged.furnishes (h : Rearranged s t) : Furnishes named s t := by
  apply Furnishes.of_node h.count_eq
  intro id n hn
  obtain ⟨n', hn', heq⟩ := h.node hn
  refine ⟨n', hn', fun role hrole => ?_⟩
  rw [← n'.held?_unplaced hrole, heq, n.held?_unplaced hrole]

/-- Nodes are made for slots, some at a time. -/
abbrev Furnished (named : NodeId → Prop) : Scene → Scene → Prop :=
  Relation.ReflTransGen (Furnishes named)

theorem Furnished.kept (h : Furnished named s t) (hrole : x.role.IsOwning) (hx : s.Holds x) :
    t.Holds x := by
  induction h with
  | refl => exact hx
  | tail _ hstep ih => exact hstep.kept x hrole ih

theorem Owns.furnished (hx : s.Owns named x) (h : Furnished named s t) : t.Owns named x :=
  ⟨h.kept hx.isOwning hx.holds, hx.isOwning, hx.constant⟩

/-- No node was made for two slots, and none of the shared cells for any. -/
structure Separate (named : NodeId → Prop) (s : Scene) : Prop where
  count : 3 ≤ s.count
  unique : ∀ x y, s.Owns named x → s.Owns named y → x.cell = y.cell → x = y
  range : ∀ x, s.Owns named x → 3 ≤ x.cell ∧ x.cell < s.count

theorem Separate.anti (h : s.Separate named) (hnamed : ∀ id, named id → named' id) :
    s.Separate named' where
  count := h.count
  unique x y hx hy := h.unique x y (hx.anti hnamed) (hy.anti hnamed)
  range x hx := h.range x (hx.anti hnamed)

theorem Separate.furnish (hs : s.Separate named) (h : Furnishes named s t) : t.Separate named := by
  obtain ⟨made, hnodup, hrange, hcases⟩ := h.made
  have hapart : ∀ x y, s.Owns named x → y ∈ made → x.cell ≠ y.cell := by
    intro x y hx hy heq
    have hlt := (hs.range x hx).2
    rw [heq] at hlt
    exact Nat.not_lt_of_le (hrange y hy).1 hlt
  refine ⟨hs.count.trans h.count, fun x y hx hy heq => ?_, fun x hx => ?_⟩
  · rcases hcases x hx with hx | hx <;> rcases hcases y hy with hy | hy
    · exact hs.unique x y hx hy heq
    · exact (hapart x y hx hy heq).elim
    · exact (hapart y x hy hx heq.symm).elim
    · exact List.inj_on_of_nodup_map hnodup hx hy heq
  · rcases hcases x hx with hx | hx
    · obtain ⟨hthree, hlt⟩ := hs.range x hx
      exact ⟨hthree, hlt.trans_le h.count⟩
    · obtain ⟨hle, hlt⟩ := hrange x hx
      exact ⟨hs.count.trans hle, hlt⟩

theorem Separate.furnished (hs : s.Separate named) (h : Furnished named s t) :
    t.Separate named := by
  induction h with
  | refl => exact hs
  | tail _ hstep ih => exact ih.furnish hstep

theorem separate_empty (defaultSize : Float) : Separate named (empty defaultSize) := by
  have hnot : ∀ x, ¬ (empty defaultSize).Owns named x := by
    intro x hx
    obtain ⟨n, hn, hheld⟩ := hx.holds
    obtain ⟨v, hv⟩ := (wellFormed_empty defaultSize).shared x.owner (lt_count_of_node hn)
    obtain rfl := node_unique hv hn
    exact List.not_mem_nil (carries_scalar x.owner v none [] x.role x.cell hx.isOwning
      hx.constant hheld)
  exact ⟨Nat.le_refl 3, fun x _ hx => (hnot x hx).elim, fun x hx => (hnot x hx).elim⟩

end Scene

namespace Session

open Scene Operation

variable {σ : Session} {op : Operation} {o : Outcome}

/-- A slot holds a node that was made for it. -/
def Owns (σ : Session) (x : Holding) : Prop :=
  σ.scene.Owns σ.HasValue x

theorem outcome?_furnished (hσ : Sound σ) (hallowed : op.Allowed σ)
    (h : op.outcome? σ.scene = some o) : Furnished σ.HasValue σ.scene o.scene := by
  by_cases hop : op.IsRelinking
  · exact .single (outcome?_rearranged hop h).furnishes
  · exact Relation.ReflTransGen.mono (fun _ _ => Change.furnishes) _ _
      (outcome?_changes hσ hallowed hop h)

theorem hasValue_follow {id : NodeId} (h : σ.HasValue id) : (σ.follow op o).HasValue id :=
  h.imp (List.mem_append_right _) (List.mem_append_right _)

/-- No node is made for two slots. -/
theorem Reachable.separate (h : Reachable σ) : σ.scene.Separate σ.HasValue := by
  obtain ⟨defaultSize, hrun⟩ := h
  induction hrun with
  | refl => exact separate_empty defaultSize
  | tail hrun hnext ih =>
      obtain ⟨op, hallowed, hperform⟩ := hnext
      obtain ⟨o, ho, rfl⟩ := perform_eq_some hperform
      have hfurnished := outcome?_furnished (Reachable.sound ⟨defaultSize, hrun⟩) hallowed ho
      exact (ih.furnished hfurnished).anti fun _ => hasValue_follow

end Session

end SceneGraph
