import SceneGraph.Proofs.Settings
import SceneGraph.Proofs.Untouched

/-!
Cells that nothing else writes.

No replay changes a plain cell.  So the shared cells, which the host never gets hold of, keep the
numbers they began with.  Main statement: no node is made for two slots, and what goes with that
(`Session.cells_apart`).
-/

namespace SceneGraph

namespace Scene

variable {s t u w : Scene} {owner id cell x : NodeId}

section

variable {list : SceneList} {f : Frame} {model : NodeId}

/-- A list that was compiled from one scene does not overwrite the shared cells of any other. -/
theorem replay_shared {inputs : InputIndex → Option Float} (hw : w.WellFormed) (hu : u.WellFormed)
    (hbears : u.Bears (Command.mentionsOf list)) (h : w.replay list inputs = .ok f) (hid : id < 3) :
    f.scene.value id = w.value id := by
  have hscalar : u.HasKind (· = .scalar) id := IsPlain.hasKind (hu.shared id hid)
  have hconfined : Confined (w.Overwritten (fun _ => True) list) (Draws list) w f.scene :=
    replay_overwrites h fun _ _ => trivial
  refine hconfined.values id ?_
  rintro (⟨hx, -⟩ | ⟨hl, hx, -⟩ | ⟨hstep, hx | ⟨_, n, -, hn, hx⟩⟩)
  · cases ((bears_mentionsOf hbears).1 _ hx).of_kind hscalar
  · cases ((bears_mentionsOf (bears_of_encloses hl hbears)).1 _ hx).of_kind hscalar
  · have hcomputed := Step.computed_isKind (bears_of_hasStep hbears hstep) hx
    exact (hcomputed.of_kind hscalar).elim nofun nofun
  · obtain ⟨v, hv⟩ := hw.shared id hid
    obtain ⟨v', hv'⟩ := hw.scalar_of_shows hn hx
    cases node_unique hv hv'

/-- A new read-back of a pin is refreshed together with the other one, and that is all that is
written. -/
theorem pinReadback_spares {axis : Axis} (h : w.pinReadback owner axis = .ok (cell, t))
    (hx : x < w.count) (hshown : ∀ n, t.node owner = .ok n → ¬ n.Shows x) :
    t.value x = w.value x := by
  have hadds : ∃ u, Additions (fun _ => False) w u ∧ (t = u ∨ u.refreshPin owner = .ok t) :=
    pinReadback_adds h
  obtain ⟨u, hu, rfl | ht⟩ := hadds
  · exact Additions.value hu hx
  · have hwiring := (u.refreshPin_rewrites owner t ht).alike.wiring
    have hconfined : Confined (fun x => ∃ n, u.node owner = .ok n ∧ n.Shows x) (fun _ => False)
        u t := refreshPin_confined ht
    rw [← Additions.value hu hx]
    apply hconfined.values
    rintro ⟨n, hn, hx⟩
    obtain ⟨n', hn', heq⟩ := node_of_wiring hwiring hn
    exact hshown n' hn' ((Node.shows_of_wiring heq).mpr hx)

theorem value_keep (h : s.keep model list = .ok t) (id : NodeId) : t.value id = s.value id :=
  read_update h (fun n => by cases n <;> rfl) id

theorem value_setSource {index : InputIndex} {source : NodeId}
    (h : s.setSource model index source = .ok t) (id : NodeId) : t.value id = s.value id := by
  rcases setSource_cases h with rfl | ⟨_, _, -, -, hupdate⟩
  · rfl
  · exact read_update hupdate (fun n => by cases n <;> rfl) id

theorem Rearranged.value (h : Rearranged s t) (hid : id < s.count) :
    t.value id = s.value id := by
  obtain ⟨n, hn⟩ := node_of_lt_count hid
  obtain ⟨n', hn', heq⟩ := h.node hn
  have hvalue : ∀ n : Node, n.unplaced.value = n.value := fun n => by cases n <;> rfl
  exact value_eq_of_node hn hn' (by rw [← hvalue, heq, hvalue])

/-- Getting hold of a model's list changes no number and no source. -/
theorem currentList_keeps (h : (s.currentList model).result = .ok (list, t)) :
    t.wiring = s.wiring ∧ t.sourceTable = s.sourceTable ∧ ∀ id, t.value id = s.value id := by
  rcases currentList_eq_ok h with ⟨-, rfl⟩ | ⟨hcompile, hkeep⟩
  · exact ⟨rfl, rfl, fun _ => rfl⟩
  · have hrecompiled := recompiled_of_keep hcompile hkeep
    exact ⟨hrecompiled.wiring, hrecompiled.sources, value_keep hkeep⟩

theorem bears_of_currentList (hw : w.WellFormed) (hnarrow : w.Narrow)
    (hkept : ∀ c, w.cached? model = some c → w.Bears (Command.mentionsOf c.list))
    (h : (w.currentList model).result = .ok (list, t)) :
    w.Bears (Command.mentionsOf list) := by
  rcases currentList_eq_ok h with ⟨hcached, -⟩ | ⟨hcompile, -⟩
  · exact hkept _ hcached
  · exact bears_of_compile hw hnarrow hcompile

theorem renderModel_spares (hw : w.WellFormed) (hnarrow : w.Narrow)
    (hkept : ∀ c, w.cached? model = some c → w.Bears (Command.mentionsOf c.list))
    (h : (w.renderModel model).result = .ok f) (hx : w.IsPlain x) :
    f.scene.value x = w.value x := by
  obtain ⟨list, t, hcurrent, hreplay⟩ := renderModel_eq_ok h
  obtain ⟨hwiring, -, hvalue⟩ := currentList_keeps hcurrent
  have hdevelops : Develops w t := .of_wiring hwiring
  have hbears := (bears_of_currentList hw hnarrow hkept hcurrent).mono hdevelops
  rw [(replayModel_spares (hw.of_wiring hwiring) hbears hreplay).plain x (hx.mono hdevelops)]
  exact hvalue x

end

end Scene

/-- The operation replays no list but one that was compiled on the way. -/
def Operation.IsFamiliar (σ : Session) : Operation → Prop
  | .renderList list _ => σ.Knows list
  | _ => True

/-- The operation replays no list but one that was compiled from a scene, this one or another. -/
def Operation.IsGenuine : Operation → Prop
  | .renderList list _ =>
    ∃ ρ root, Session.Reachable ρ ∧ (ρ.scene.compile root).result = .ok list
  | _ => True

theorem Operation.IsFamiliar.isGenuine {σ : Session} {op : Operation} (h : op.IsFamiliar σ) :
    op.IsGenuine := by
  cases op with
  | renderList list inputs =>
      obtain ⟨ρ, root, hρ, -, hlist⟩ := h
      exact ⟨ρ, root, hρ, hlist⟩
  | _ => trivial

/-- The operation replays a list. -/
def Operation.IsReplay : Operation → Prop
  | .renderModel _ | .renderList .. => True
  | _ => False

namespace Session

open Scene Operation

variable {σ τ : Session} {op : Operation} {o : Outcome} {id x : NodeId}

/-- Without a replay, a cell that is no base keeps its number until it is set, or a new read-back
of the pin is asked for that it reads back. -/
theorem outcome?_scalar (hσ : Reachable σ) (hallowed : op.Allowed σ) (hop : ¬ op.IsReplay)
    (h : op.outcome? σ.scene = some o) (hx : σ.scene.HasKind (· = .scalar) x)
    (hset : ∀ v, op ≠ .setValue x v) (hbase : ∀ owner, ¬ o.scene.Holds ⟨owner, .base, x⟩)
    (hshown : ∀ pin axis, op = .pinReadback pin axis →
      ∀ n, o.scene.node pin = .ok n → ¬ n.Shows x) : o.scene.value x = σ.scene.value x := by
  have hlt : x < σ.scene.count := hx.lt_count
  have hdevelops : Develops σ.scene o.scene :=
    (hσ.sound.next ⟨op, hallowed, perform_of_outcome? h⟩).2
  by_cases hadds : op.IsAdding
  · exact (outcome?_adds hσ.sound hallowed hadds h).value hlt
  by_cases hrelinks : op.IsRelinking
  · exact (outcome?_rearranged hrelinks h).value hlt
  by_cases hsettings : op.settings ≠ []
  · rcases outcome?_realizes hσ hallowed h hsettings with hrealizes | ⟨-, hsame⟩
    · exact hrealizes.scalar hdevelops (calculated_of_settings (hσ.follow hallowed h)) hx hbase
    · rw [hsame]
  cases op with
  | setValue cell v =>
      obtain ⟨t, ht, rfl⟩ := map_toOption_eq_some.mp h
      exact value_update_of_ne ht fun heq => hset v (heq ▸ rfl)
  | setBaseValue cell v =>
      obtain ⟨t, ht, rfl⟩ := map_toOption_eq_some.mp h
      have hcell : σ.scene.IsCalculated cell := hσ.sound.handles _ hallowed
      have hsets := setBaseValue_sets hσ.separate hσ.strict.links hcell ht
      refine hsets.scalar hdevelops (fun cell hmem => ?_) hx hbase
      obtain rfl := List.mem_singleton.mp hmem
      exact hcell.mono hdevelops
  | pinReadback pin axis =>
      obtain ⟨⟨cell, t⟩, ht, rfl⟩ := map_toOption_eq_some.mp h
      exact pinReadback_spares ht hlt (hshown pin axis rfl)
  | setDisplay node handle =>
      obtain ⟨t, ht, rfl⟩ := map_toOption_eq_some.mp h
      exact read_update ht (fun n => by cases n <;> rfl) x
  | setSource model index source =>
      obtain ⟨t, ht, rfl⟩ := map_toOption_eq_some.mp h
      exact value_setSource ht x
  | compile root =>
      obtain rfl := outcome?_compile h
      rfl
  | compileModel model =>
      rcases Outcome.orCycle?_eq_some.mp h with hok | ⟨c, -, rfl⟩
      · obtain ⟨⟨list, t⟩, ht, rfl⟩ := except_map_eq_ok.mp hok
        exact value_keep (result_compileModel_eq_ok ht).2 x
      · rfl
  | renderModel | renderList => exact (hop trivial).elim
  | setPartAttribute | setPinCoordinate | setPinnedPartDimension | setPinTarget =>
      exact (hsettings nofun).elim
  | addChild | addChildren | removeChild => exact (hrelinks trivial).elim
  | _ => exact (hadds trivial).elim

/-- No operation writes the shared cells. -/
theorem outcome?_shared (hσ : Reachable σ) (hallowed : op.Allowed σ) (hop : op.IsGenuine)
    (h : op.outcome? σ.scene = some o) (hid : id < 3) :
    o.scene.value id = σ.scene.value id := by
  have hs := hσ.sound.wellFormed
  have hplain : σ.scene.IsPlain id := hs.shared id hid
  by_cases hreplay : op.IsReplay
  · cases op with
    | renderModel model =>
        rcases Outcome.orCycle?_eq_some.mp h with hok | ⟨c, -, rfl⟩
        · obtain ⟨f, hf, rfl⟩ := except_map_eq_ok.mp hok
          exact renderModel_spares hs hσ.strict.links (fun c hc => (hσ.knows hc).bears) hf hplain
        · rfl
    | renderList list inputs =>
        obtain ⟨f, hf, rfl⟩ := map_toOption_eq_some.mp h
        obtain ⟨ρ, root, hρ, hlist⟩ := hop
        have hu := hρ.sound.wellFormed
        exact replay_shared hs hu (bears_of_compile hu hρ.strict.links hlist) hf hid
    | _ => exact hreplay.elim
  have hnext := hσ.follow hallowed h
  refine outcome?_scalar hσ hallowed hreplay h hplain.hasKind ?_ ?_ ?_
  · rintro v rfl
    rcases hallowed with hhandle | hhandle <;>
      exact Nat.not_le_of_lt hid (hσ.three_le_handle hhandle)
  · intro owner hheld
    exact Nat.not_le_of_lt hid (hnext.separate.range ⟨owner, .base, id⟩ ⟨hheld, trivial, nofun⟩).1
  · rintro pin axis rfl n hn hshown
    have hafter := hnext.sound.wellFormed
    obtain ⟨v, hv⟩ := hafter.scalar_of_shows hn hshown
    obtain ⟨v', hv'⟩ := hafter.shared id hid
    cases node_unique hv hv'

/-- A run of allowed operations that replays only lists which were compiled from a scene. -/
def Genuine (defaultSize : Float) : Session → Prop :=
  Relation.ReflTransGen
    (fun σ τ => ∃ op : Operation, op.Allowed σ ∧ op.IsGenuine ∧ σ.perform op = some τ)
    (start defaultSize)

theorem Genuine.runs {defaultSize : Float} (h : Genuine defaultSize σ) :
    Runs (start defaultSize) σ :=
  Relation.ReflTransGen.mono (fun _ _ ⟨op, hallowed, _, hperform⟩ => ⟨op, hallowed, hperform⟩) _ _ h

theorem Genuine.reachable {defaultSize : Float} (h : Genuine defaultSize σ) : Reachable σ :=
  ⟨defaultSize, h.runs⟩

/-- The shared cells hold what they held at the start. -/
theorem Genuine.shared {defaultSize : Float} (h : Genuine defaultSize σ) (hid : id < 3) :
    σ.scene.value id = (empty defaultSize).value id := by
  induction h with
  | refl => rfl
  | tail hrun hnext ih =>
      obtain ⟨op, hallowed, hop, hperform⟩ := hnext
      obtain ⟨o, ho, rfl⟩ := perform_eq_some hperform
      exact (outcome?_shared (Genuine.reachable hrun) hallowed hop ho hid).trans ih

/-- A run of allowed operations that replays only lists which were compiled on the way. -/
def Conducted (defaultSize : Float) : Session → Prop :=
  Relation.ReflTransGen
    (fun σ τ => ∃ op : Operation, op.Allowed σ ∧ op.IsFamiliar σ ∧ σ.perform op = some τ)
    (start defaultSize)

theorem Conducted.genuine {defaultSize : Float} (h : Conducted defaultSize σ) :
    Genuine defaultSize σ :=
  Relation.ReflTransGen.mono
    (fun _ _ ⟨op, hallowed, hop, hperform⟩ => ⟨op, hallowed, hop.isGenuine, hperform⟩) _ _ h

theorem Conducted.reachable {defaultSize : Float} (h : Conducted defaultSize σ) : Reachable σ :=
  h.genuine.reachable

theorem Conducted.shared {defaultSize : Float} (h : Conducted defaultSize σ) (hid : id < 3) :
    σ.scene.value id = (empty defaultSize).value id :=
  h.genuine.shared hid

theorem Conducted.runAll {defaultSize : Float} {ops : List Operation}
    (hσ : Conducted defaultSize σ) (hops : ∀ op ∈ ops, ∀ ρ, op.IsFamiliar ρ)
    (h : σ.runAll ops = some τ) : Conducted defaultSize τ := by
  induction ops generalizing σ with
  | nil =>
      obtain rfl := Option.some.inj h
      exact hσ
  | cons op ops ih =>
      obtain ⟨hallowed, υ, hυ, hrest⟩ := runAll_cons.mp h
      rw [List.forall_mem_cons] at hops
      exact ih (hσ.tail ⟨op, hallowed, hops.1 σ, hυ⟩) hops.2 hrest

/-- No node was made for two slots, and none of the shared cells for any.  What was made for a
slot stays in it: an accessor gives out the same handle for good, and a pin is attached once.
So setting one attribute, coordinate, dimension or target changes the number and the base value
of that cell, and of no other.  The shared cells keep the numbers they began with, unless a list
is replayed that the scene does not know. -/
theorem cells_apart (hσ : Reachable σ) :
    (∀ x y, σ.Owns x → σ.Owns y → x.cell = y.cell → x = y) ∧
    (∀ x, σ.Owns x → 3 ≤ x.cell ∧ x.cell < σ.scene.count) ∧
    (∀ τ x, Runs σ τ → σ.Owns x → τ.Owns x) ∧
    (∀ (op : Operation) o handle τ, op.Allowed σ → op.IsAccessor →
      op.outcome? σ.scene = some o → o.handle? = some handle → Runs (σ.follow op o) τ →
        op.outcome? τ.scene = some { scene := τ.scene, handle? := some handle }) ∧
    (∀ part slot origin o τ, (Operation.attachPin part slot origin).Allowed σ →
      (Operation.attachPin part slot origin).outcome? σ.scene = some o →
      Runs (σ.follow (.attachPin part slot origin) o) τ → ∀ origin',
        (Operation.attachPin part slot origin').outcome? τ.scene = some (.ofScene τ.scene)) ∧
    (∀ (op : Operation) o, op.Allowed σ → op.settings ≠ [] → op.outcome? σ.scene = some o →
      Realizes op.settings σ.scene o.scene ∨ op.IsIdle σ.scene ∧ o.scene = σ.scene) ∧
    (∀ id v t, σ.HasCalculated id → σ.scene.setBaseValue id v = .ok t →
      Sets [(id, v)] σ.scene t) ∧
    (∀ defaultSize, Conducted defaultSize σ → σ.scene.value zeroCell = .ok 0.0 ∧
      σ.scene.value oneCell = .ok 1.0 ∧ σ.scene.value 2 = .ok defaultSize) :=
  ⟨hσ.separate.unique, hσ.separate.range, fun _ _ hrun hx => hrun.owns hσ hx,
    fun _ _ _ _ hallowed hop h hhandle hrun => outcome?_of_runs hσ hallowed hop h hhandle hrun,
    fun _ _ _ _ _ hallowed h hrun => attachPin_of_runs hσ hallowed h hrun,
    fun _ _ hallowed hop h => outcome?_realizes hσ hallowed h hop,
    fun _ _ _ hid => setBaseValue_sets hσ.separate hσ.strict.links (hσ.sound.handles _ hid),
    fun _ h => ⟨h.shared (by decide), h.shared (by decide), h.shared (by decide)⟩⟩

/-- A part with an attribute, the list of which is replayed, and a pinned part. -/
theorem cells_apart_replayed : ∃ σ list τ,
    (start 100.0).runAll [.part, .partAttribute 3 .x, .pinnedPart] = some σ ∧
    (σ.scene.compile 3).result = .ok list ∧ σ.perform (.renderList list []) = some τ ∧
    (∀ y, τ.Owns y → 5 = y.cell → ⟨3, .attribute .x, 5⟩ = y) ∧
    (∃ o, (Operation.partAttribute 3 .y).outcome? τ.scene = some o ∧
      (τ.follow (.partAttribute 3 .y) o).Owns ⟨3, .attribute .x, 5⟩ ∧
      (Operation.partAttribute 3 .y).outcome? o.scene =
        some { scene := o.scene, handle? := some (.calculated 8) }) ∧
    (∃ o, (Operation.attachPin 6 .a ⟨1.0, 2.0⟩).outcome? τ.scene = some o ∧
      (Operation.attachPin 6 .a ⟨3.0, 4.0⟩).outcome? o.scene = some (.ofScene o.scene)) ∧
    (∃ o, (Operation.setPartAttribute 3 .x 7.0).outcome? τ.scene = some o ∧
      Realizes [⟨3, .attribute .x, 7.0⟩] τ.scene o.scene) ∧
    (∃ t, τ.scene.setBaseValue 5 2.0 = .ok t ∧ Sets [(5, 2.0)] τ.scene t) ∧
    τ.scene.value zeroCell = .ok 0.0 ∧ τ.scene.value oneCell = .ok 1.0 ∧
    τ.scene.value 2 = .ok 100.0 := by
  obtain ⟨σ, hσ, list, hlist, τ, hτ, hholds, hpart, hpinnedPart, hcell, o₁, ho₁, hhandle, o₂, ho₂,
      o₃, ho₃, t, ht⟩ :
      ∃ σ, (start 100.0).runAll [.part, .partAttribute 3 .x, .pinnedPart] = some σ ∧
      ∃ list, (σ.scene.compile 3).result = .ok list ∧
      ∃ τ, σ.perform (.renderList list []) = some τ ∧
      τ.scene.Holds ⟨3, .attribute .x, 5⟩ ∧ τ.HasPart 3 ∧ τ.HasPinnedPart 6 ∧ τ.HasCalculated 5 ∧
      ∃ o₁, (Operation.partAttribute 3 .y).outcome? τ.scene = some o₁ ∧
        o₁.handle? = some (.calculated 8) ∧
      ∃ o₂, (Operation.attachPin 6 .a ⟨1.0, 2.0⟩).outcome? τ.scene = some o₂ ∧
      ∃ o₃, (Operation.setPartAttribute 3 .x 7.0).outcome? τ.scene = some o₃ ∧
      ∃ t, τ.scene.setBaseValue 5 2.0 = .ok t :=
    ⟨_, rfl, _, rfl, _, rfl, ⟨_, rfl, rfl⟩, by decide, by decide, by decide, _, rfl, rfl, _, rfl,
      _, rfl, _, rfl⟩
  have hconducted : Conducted 100.0 σ :=
    Conducted.runAll .refl (by simp [Operation.IsFamiliar]) hσ
  have hfamiliar : σ.Knows list := ⟨σ, 3, hconducted.reachable, .refl, hlist⟩
  have hreplayed : Conducted 100.0 τ :=
    hconducted.tail ⟨.renderList list [], trivial, hfamiliar, hτ⟩
  have howns : τ.Owns ⟨3, .attribute .x, 5⟩ := ⟨hholds, trivial, nofun⟩
  have hgrown : Next τ (τ.follow (.partAttribute 3 .y) o₁) :=
    ⟨.partAttribute 3 .y, hpart, perform_of_outcome? ho₁⟩
  obtain ⟨hunique, -, hkept, haccessors, hattach, hrealizes, hsets, hshared⟩ :=
    cells_apart hreplayed.reachable
  exact ⟨σ, list, τ, hσ, hlist, hτ, fun y hy => hunique _ y howns hy,
    ⟨o₁, ho₁, hkept _ _ (.single hgrown) howns,
      haccessors (.partAttribute 3 .y) o₁ _ _ hpart trivial ho₁ hhandle .refl⟩,
    ⟨o₂, ho₂, hattach 6 .a _ o₂ _ hpinnedPart ho₂ .refl _⟩,
    ⟨o₃, ho₃, (hrealizes (.setPartAttribute 3 .x 7.0) o₃ hpart nofun ho₃).resolve_right And.left⟩,
    ⟨t, ht, hsets 5 2.0 t hcell ht⟩, hshared 100.0 hreplayed⟩

end Session

end SceneGraph