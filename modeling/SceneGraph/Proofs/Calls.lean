import SceneGraph.Proofs.Isolation

/-!
What the host is called for.

A replay calls the host for every step that shows a node with a display handle, in order, lists
within lists included.  A list shows a node at most once; but each list has its own look at the
scene, and a node that several lists of one frame hold is shown by each of them
(`Session.calls_per_list`).
-/

namespace SceneGraph

namespace Command

/-- The node that a command shows itself. -/
def shown? : Command → Option NodeId
  | .step s => s.shown?.map Shown.node
  | .replayModel .. => none

/-- The nodes that commands show themselves, in order. -/
def shownIn (commands : List Command) : List NodeId :=
  commands.filterMap shown?

mutual

/-- The nodes that a command shows, lists within included. -/
def shows : Command → List NodeId
  | .step s => (s.shown?.map Shown.node).toList
  | .replayModel _ list => showsOf list

/-- The nodes that a list shows, lists within included. -/
def showsOf : SceneList → List NodeId
  | ⟨_, commands, _⟩ => showsAll commands

def showsAll : List Command → List NodeId
  | [] => []
  | c :: cs => c.shows ++ showsAll cs

end

mutual

/-- The lists that a command replays, each before the lists within it. -/
def lists : Command → List SceneList
  | .step _ => []
  | .replayModel _ list => listsOf list

/-- A list and the lists within it. -/
def listsOf : SceneList → List SceneList
  | ⟨root, commands, inputs⟩ => ⟨root, commands, inputs⟩ :: listsIn commands

def listsIn : List Command → List SceneList
  | [] => []
  | c :: cs => c.lists ++ listsIn cs

end

mutual

/-- What is shown is shown by one of the lists. -/
theorem count_shows (x : NodeId) : (c : Command) → c.shows.count x =
    (shownIn [c]).count x + (c.lists.flatMap fun l => shownIn l.commands).count x
  | .step s => by
      cases hshown : s.shown? <;> simp [shows, lists, shownIn, shown?, hshown]
  | .replayModel model list => by
      have hnone : shownIn [replayModel model list] = [] := rfl
      rw [hnone, List.count_nil, Nat.zero_add]
      exact count_showsOf x list

theorem count_showsOf (x : NodeId) : (list : SceneList) → (showsOf list).count x =
    ((listsOf list).flatMap fun l => shownIn l.commands).count x
  | ⟨root, commands, inputs⟩ => by
      have hcommands := count_showsAll x commands
      simpa [showsOf, listsOf] using hcommands

theorem count_showsAll (x : NodeId) : (cs : List Command) → (showsAll cs).count x =
    (shownIn cs).count x + ((listsIn cs).flatMap fun l => shownIn l.commands).count x
  | [] => by simp [showsAll, listsIn, shownIn]
  | c :: cs => by
      have hc := count_shows x c
      have hcs := count_showsAll x cs
      have hsplit : shownIn (c :: cs) = shownIn [c] ++ shownIn cs :=
        List.filterMap_append (l := [c])
      rw [showsAll, listsIn, List.count_append, hc, hcs, hsplit, List.count_append,
        List.flatMap_append, List.count_append]
      omega

end

end Command

namespace Scene

variable {s t : Scene} {x : NodeId}

/-- What is said of a node without its number and its matrices stays true. -/
theorem Rewrites.map_node_eq {α : Type} {g : Node → α} (hvalue : ∀ v n, g (n.setValue v) = g n)
    (hmatrix : ∀ f n, (∀ c, (f c).wiring = c.wiring) → g (n.mapContainer f) = g n)
    (h : Rewrites s t) (id : NodeId) : t.nodes[id]?.map g = s.nodes[id]?.map g := by
  have hupdate : ∀ {r u : Scene} {other : NodeId} {f : Node → Node}, r.update other f = .ok u →
      (∀ n, g (f n) = g n) → u.nodes[id]?.map g = r.nodes[id]?.map g := by
    intro r u other f hu hf
    unfold update at hu
    split at hu <;> cases hu
    simp only [Array.getElem?_modify]
    split <;> simp [Function.comp_def, hf]
  induction h with
  | refl => rfl
  | tail _ hstep ih =>
      cases hstep with
      | setValue hu => exact (hupdate hu (hvalue _)).trans ih
      | mapContainer hu hf => exact (hupdate hu fun n => hmatrix _ n hf).trans ih

/-- The host named an object that draws the node. -/
def isDisplayed (s : Scene) (id : NodeId) : Bool :=
  s.nodes[id]?.any fun n => n.display?.isSome

theorem Rewrites.isDisplayed_eq (h : Rewrites s t) : t.isDisplayed = s.isDisplayed := by
  funext id
  have hdisplay := h.map_node_eq (g := Node.display?) (fun v n => by cases n <;> rfl)
    (fun f n _ => by cases n <;> rfl) id
  have hread : ∀ r : Scene,
      r.isDisplayed id = (r.nodes[id]?.map Node.display?).any Option.isSome := by
    intro r
    unfold isDisplayed
    cases r.nodes[id]? <;> rfl
  rw [hread, hread, hdisplay]

end Scene

open Scene (Rewrites)

variable {f f' : Frame}

/-- The nodes that the host was called for, in order. -/
def Frame.called (f : Frame) : List NodeId :=
  f.calls.map fun c => c.shown.node

theorem Frame.called_present {shown : Shown} (h : f.present shown = .ok f') :
    f'.called = f.called ++ [shown.node].filter f.scene.isDisplayed := by
  obtain ⟨n, hn, h⟩ := except_bind_eq_ok.mp h
  have hdisplayed : f.scene.isDisplayed shown.node = n.display?.isSome := by
    rw [Scene.isDisplayed, Scene.node_eq_ok.mp hn, Option.any_some]
  cases hdisplay : n.display? with
  | none =>
      rw [hdisplay] at h hdisplayed
      cases h
      simp [hdisplayed]
  | some handle =>
      rw [hdisplay] at h hdisplayed
      cases h
      simp [hdisplayed, called]

theorem Step.called_run {step : Step} (h : step.run f = .ok f') :
    f'.called = f.called ++ (Command.step step).shows.filter f.scene.isDisplayed := by
  obtain ⟨t, ht, h⟩ := except_bind_eq_ok.mp h
  cases hshown : step.shown? with
  | none =>
      rw [hshown] at h
      cases h
      simp [Command.shows, hshown, Frame.called, Frame.withScene]
  | some shown =>
      rw [hshown] at h
      have hdisplayed := (step.change_rewrites f.scene t ht).isDisplayed_eq
      have hcalled := Frame.called_present h
      rw [show (f.withScene t).scene = t from rfl, hdisplayed] at hcalled
      simpa [Command.shows, hshown, Frame.called, Frame.withScene] using hcalled

theorem Frame.called_writes {writes : List (NodeId × Float)}
    (h : writes.foldlM Frame.write f = .ok f') : f'.called = f.called := by
  have htrans : ∀ {f g h : Frame}, g.called = f.called → h.called = g.called →
      h.called = f.called := fun hfg hgh => hgh.trans hfg
  refine foldlM_related (R := fun f f' => f'.called = f.called) (fun _ => rfl) htrans
    (fun {f w f'} h => ?_) writes h
  unfold Frame.write at h
  cases hset : f.scene.setValue w.1 w.2 with
  | error e => rw [hset] at h; cases h
  | ok t => rw [hset] at h; cases h; rfl

mutual

theorem Command.called_run : (c : Command) → {f f' : Frame} → c.run f = .ok f' →
    f'.called = f.called ++ c.shows.filter f.scene.isDisplayed
  | .step s, _, _, h => Step.called_run h
  | .replayModel model list, _, _, h => by
      obtain ⟨inputs, -, h⟩ := except_bind_eq_ok.mp h
      exact Command.called_runList list h

theorem Command.called_runList {inputs : InputIndex → Option Float} : (list : SceneList) →
    {f f' : Frame} → Command.runList inputs f list = .ok f' →
    f'.called = f.called ++ (Command.showsOf list).filter f.scene.isDisplayed
  | ⟨_, commands, bindings⟩, f, f', h => by
      obtain ⟨f₁, hwrites, h⟩ := except_bind_eq_ok.mp h
      rw [Command.called_runAll commands h, Frame.called_writes hwrites,
        (Frame.writes_rewrites hwrites).isDisplayed_eq]
      rfl

theorem Command.called_runAll : (cs : List Command) → {f f' : Frame} →
    Command.runAll f cs = .ok f' →
    f'.called = f.called ++ (Command.showsAll cs).filter f.scene.isDisplayed
  | [], _, _, h => by
      cases h
      simp [Command.showsAll]
  | c :: cs, f, f', h => by
      obtain ⟨f₁, hc, h⟩ := except_bind_eq_ok.mp h
      rw [Command.called_runAll cs h, Command.called_run c hc,
        (Command.run_rewrites c hc).isDisplayed_eq, Command.showsAll, List.filter_append,
        List.append_assoc]

end

/-- A replay calls the host for exactly the nodes with a display handle that the list and the
lists within it show, in order. -/
theorem Scene.called_replay {s : Scene} {list : SceneList} {inputs : InputIndex → Option Float}
    (h : s.replay list inputs = .ok f) :
    f.called = (Command.showsOf list).filter s.isDisplayed := by
  unfold Scene.replay at h
  rw [← Command.runList_eq_replay] at h
  simpa [Frame.called] using Command.called_runList list h

/-- Only what a node emits itself counts if nothing else mentions it. -/
theorem Emission.count_flatMap_ofNode {ν κ : Type} [DecidableEq ν] {n : ν}
    {es : List (Emission ν κ)} {f : Emission ν κ → List ν}
    (hf : ∀ e ∈ es, n ∈ f e → e.owner = n) :
    (es.flatMap f).count n = ((ofNode n es).flatMap f).count n := by
  induction es with
  | nil => rfl
  | cons e es ih =>
      have ih := ih fun e he => hf e (List.mem_cons_of_mem _ he)
      by_cases howner : e.owner = n
      · simp [ofNode, howner, ih]
      · have hnone : (f e).count n = 0 := List.count_eq_zero.mpr fun hn =>
          howner (hf e List.mem_cons_self hn)
        simp [ofNode, howner, hnone, ih]

/-- A list shows the node when it has it, the node being placed and not the list's own model. -/
def Node.isShown (isolated : List NodeId) (id : NodeId) : Node → Bool
  | .part p => p.model.isNone || id ∉ isolated
  | .pin _ | .pinnedPart _ => true
  | _ => false

/-- The node that a contribution shows. -/
def Contribution.shown? : Contribution NodeId Command → Option NodeId
  | .command c => c.shown?
  | .embed _ => none

namespace Scene

open RenderGraph (Nested)
open Emission (count_flatMap_ofNode)

variable {s : Scene} {isolated : List NodeId} {r x : NodeId} {n : Node}
  {nested : Nested NodeId Command}

theorem filterMap_shown?_contributions (isolated : List NodeId) (x : NodeId) (n : Node) :
    (contributions isolated x n).filterMap Contribution.shown? =
      if n.isShown isolated x then [x] else [] := by
  cases n with
  | part p =>
      cases hmodel : p.model <;> by_cases hx : x ∈ isolated <;>
        simp [contributions, Node.isShown, Contribution.shown?, Command.shown?, Step.shown?,
          Shown.node, hmodel, hx]
  | calculated c =>
      cases htail : c.modifiers.getLast? <;>
        simp [contributions, Node.isShown, Contribution.shown?, Command.shown?, Step.shown?, htail]
  | _ => simp [contributions, Node.isShown, Contribution.shown?, Command.shown?, Step.shown?,
      Shown.node]

theorem shownIn_own {own : List Command} (hn : s.node x = .ok n)
    (hown : s.graph.Contributes nested isolated x own) :
    Command.shownIn own = if n.isShown isolated x then [x] else [] := by
  have hcommands := Traced.result_mapM_eq_ok.mp hown
  rw [← filterMap_shown?_contributions, ← contributions_of_node hn]
  generalize s.graph.contributions isolated x = cs at hcommands
  clear hown
  induction hcommands with
  | nil => rfl
  | @cons c k cs own hc _ ih =>
      have hshown : k.shown? = c.shown? := by
        cases c with
        | command c =>
            obtain rfl := RenderGraph.contribute_command_eq_ok.mp hc
            rfl
        | embed m =>
            obtain ⟨list, -, rfl⟩ := RenderGraph.contribute_embed_eq_ok.mp hc
            rfl
      rw [Command.shownIn] at ih ⊢
      rw [List.filterMap_cons, List.filterMap_cons, hshown, ih]

/-- What is emitted while requirements are gone through shows nothing. -/
theorem shown?_of_requirements {c : Command} (hc : .command c ∈ s.graph.requirements isolated x) :
    c.shown? = none := by
  obtain ⟨n, hn, hc⟩ := mem_getD_map.mp hc
  rw [needs_eq] at hc
  split at hc
  · cases hc
  · cases n with
    | scalar v requirement =>
        exact absurd (List.mem_singleton.mp hc).symm requirement_ofOption_ne_command
    | part p =>
        simp [needs, partNeeds, emit, requirement_ofOption_ne_command.symm] at hc
        rcases hc with rfl | ⟨parent, -, rfl⟩ | rfl <;> rfl
    | pinnedPart p =>
        simp [needs, pinnedPartNeeds, emit] at hc
        obtain rfl := hc
        rfl
    | _ => simp [needs, requirement_ofOption_ne_command.symm] at hc

/-- What an emission shows is its owner. -/
theorem mem_shownIn_emission {c : CompileState NodeId Command}
    (hc : s.graph.Assembled nested isolated r c) {e : Emission NodeId Command}
    (he : e ∈ c.emissions) (hx : x ∈ Command.shownIn e.commands) : e.owner = x := by
  rcases hc.mem_emissions he with ⟨m, k, rfl, -, hk⟩ | ⟨m, own, rfl, hm, hown⟩
  · rw [Command.shownIn, Emission.commands, List.filterMap_cons, shown?_of_requirements hk] at hx
    cases hx
  · obtain ⟨k, hk, -⟩ := List.mem_filterMap.mp hx
    obtain ⟨contribution, hcontribution, -⟩ := Traced.exists_of_mem_mapM hown hk
    obtain ⟨n, hn, -⟩ := mem_getD_map.mp hcontribution
    rw [Emission.commands, shownIn_own hn hown] at hx
    split at hx
    · exact (List.mem_singleton.mp hx).symm
    · cases hx

/-- How often a list shows a node that it visits. -/
theorem count_shownIn {list : SceneList} (h : s.graph.Makes isolated r list)
    (hx : s.graph.Visited isolated r x) (hn : s.node x = .ok n) :
    (Command.shownIn list.commands).count x = if n.isShown isolated x then 1 else 0 := by
  obtain ⟨nested, c, hc, rfl, -⟩ := h.assembled
  obtain ⟨own, hown⟩ := hc.settled x ((hc.mem_added x).mpr hx)
  have hshown : Command.shownIn (s.graph.finish r c).commands =
      c.emissions.flatMap fun e => Command.shownIn e.commands :=
    List.filterMap_flatMap
  have hinlined : (Requirement.inlined x (s.graph.requirements isolated x)).flatMap
      (fun e => Command.shownIn e.commands) = [] := by
    refine List.flatMap_eq_nil_iff.mpr fun e he => ?_
    obtain ⟨k, hk, rfl⟩ := Requirement.mem_inlined.mp he
    rw [Command.shownIn, Emission.commands, List.filterMap_cons, shown?_of_requirements hk]
    rfl
  rw [hshown, count_flatMap_ofNode fun e he => mem_shownIn_emission hc he, hown.trace,
    List.flatMap_append, hinlined, List.nil_append, List.flatMap_singleton, Emission.commands,
    shownIn_own hn hown.contributes]
  split <;> simp

/-- A list shows the nodes that it visits, if they are placed and not its own model, each of
them once. -/
theorem mem_shownIn_iff {list : SceneList} (h : s.graph.Makes isolated r list) :
    x ∈ Command.shownIn list.commands ↔
      s.graph.Visited isolated r x ∧ ∃ n, s.node x = .ok n ∧ n.isShown isolated x := by
  constructor
  · intro hx
    obtain ⟨c, hc, hshown⟩ := List.mem_filterMap.mp hx
    rcases command_of_makes h hc with ⟨y, step, hy, -, rfl, hstep⟩ | ⟨m, inner, -, -, -, rfl⟩
    · obtain ⟨shown, hstepShown, rfl⟩ := Option.map_eq_some_iff.mp hshown
      obtain rfl := hstep.shown hstepShown
      obtain ⟨n, hn⟩ := hstep.node
      refine ⟨hy, n, hn, ?_⟩
      have hcount := List.count_pos_iff.mpr hx
      rw [count_shownIn h hy hn] at hcount
      by_contra hnot
      rw [if_neg hnot] at hcount
      exact Nat.lt_irrefl 0 hcount
    · cases hshown
  · rintro ⟨hvisited, n, hn, hshown⟩
    rw [← List.count_pos_iff, count_shownIn h hvisited hn, if_pos hshown]
    exact Nat.one_pos

theorem nodup_shownIn {list : SceneList} (h : s.graph.Makes isolated r list) :
    (Command.shownIn list.commands).Nodup := by
  refine List.nodup_iff_count_le_one.mpr fun x => ?_
  by_cases hx : x ∈ Command.shownIn list.commands
  · obtain ⟨hvisited, n, hn, -⟩ := (mem_shownIn_iff h).mp hx
    rw [count_shownIn h hvisited hn]
    split <;> simp
  · rw [List.count_eq_zero.mpr hx]
    exact Nat.zero_le 1

mutual

/-- Lists within a made list are made. -/
theorem makes_of_mem_lists : (c : Command) → s.Has c →
    ∀ l ∈ c.lists, ∃ isolated r, s.graph.Makes isolated r l
  | .step _, _, _, hl => by cases hl
  | .replayModel _ inner, ⟨_, hinner⟩, l, hl => makes_of_mem_listsOf inner hinner l hl

theorem makes_of_mem_listsOf {isolated : List NodeId} {r : NodeId} : (list : SceneList) →
    s.graph.Makes isolated r list →
    ∀ l ∈ Command.listsOf list, ∃ isolated r, s.graph.Makes isolated r l
  | ⟨root, commands, inputs⟩, h, l, hl => by
      rcases List.mem_cons.mp hl with rfl | hl
      · exact ⟨isolated, r, h⟩
      · exact makes_of_mem_listsIn commands (has_of_makes h) l hl

theorem makes_of_mem_listsIn : (cs : List Command) → (∀ c ∈ cs, s.Has c) →
    ∀ l ∈ Command.listsIn cs, ∃ isolated r, s.graph.Makes isolated r l
  | [], _, _, hl => by cases hl
  | c :: cs, h, l, hl => by
      rw [List.forall_mem_cons] at h
      rcases List.mem_append.mp hl with hl | hl
      · exact makes_of_mem_lists c h.1 l hl
      · exact makes_of_mem_listsIn cs h.2 l hl

end

theorem makes_of_compile {root : NodeId} {list : SceneList}
    (h : (s.compile root).result = .ok list) : s.graph.Makes [] root list :=
  RenderGraph.makes_of_compile (mapError_eq_ok.mp h)

/-- Where nothing is counted twice, counting in each list amounts to counting lists. -/
theorem count_flatMap_eq_countP {α β : Type} [DecidableEq β] {f : α → List β} {ls : List α} {b : β}
    (h : ∀ l ∈ ls, (f l).Nodup) : (ls.flatMap f).count b = ls.countP fun l => b ∈ f l := by
  induction ls with
  | nil => rfl
  | cons l ls ih =>
      rw [List.flatMap_cons, List.count_append, ih fun l hl => h l (List.mem_cons_of_mem _ hl),
        (h l List.mem_cons_self).count, List.countP_cons, Nat.add_comm]
      simp

/-- During one replay of a compiled list, on whatever scene, the host is called for a node as
often as there are lists that show the node, among the list and the lists within it; and it is
not called for a node without a display handle. -/
theorem calls_per_list {w : Scene} {root : NodeId} {list : SceneList}
    (hlist : (w.compile root).result = .ok list) {inputs : InputIndex → Option Float} {f : Frame}
    (hf : s.replay list inputs = .ok f) (x : NodeId) :
    f.called.count x = if s.isDisplayed x then
      (Command.listsOf list).countP fun l => x ∈ Command.shownIn l.commands else 0 := by
  rw [called_replay hf]
  cases hdisplayed : s.isDisplayed x with
  | false =>
      rw [if_neg Bool.false_ne_true, List.count_eq_zero]
      simp [hdisplayed]
  | true =>
      rw [List.count_filter hdisplayed, Command.count_showsOf, if_pos rfl]
      refine count_flatMap_eq_countP fun l hl => ?_
      obtain ⟨isolated, r, hmade⟩ := makes_of_mem_listsOf list (makes_of_compile hlist) l hl
      exact nodup_shownIn hmade

end Scene

namespace Session

/-- A frame in which the list of a root is compiled and replayed at once, without inputs. -/
def frame? (σ : Session) (root : NodeId) : Option Frame :=
  (σ.scene.compile root).result.toOption.bind fun list =>
    (σ.scene.replay list (suppliedBy [])).toOption

theorem frame?_eq_some {σ : Session} {root : NodeId} {f : Frame} : σ.frame? root = some f ↔
    ∃ list, (σ.scene.compile root).result = .ok list ∧
      σ.scene.replay list (suppliedBy []) = .ok f := by
  simp only [frame?, Option.bind_eq_some_iff, toOption_eq_some]

/-- A pin with a display handle, in a model. -/
def pinInModel : List Operation :=
  [.model, .pin, .addChild 3 4, .setDisplay 4 7]

theorem calls_per_list_pinInModel : ∃ σ list f, (start 100.0).runAll pinInModel = some σ ∧
    (σ.scene.compile 4).result = .ok list ∧ σ.scene.replay list (suppliedBy []) = .ok f ∧
    f.called.count 4 = (Command.listsOf list).countP fun l => 4 ∈ Command.shownIn l.commands := by
  have hrun : ∃ σ ∈ (start 100.0).runAll pinInModel, ∃ f ∈ σ.frame? 4,
      σ.scene.isDisplayed 4 = true := by decide +kernel
  obtain ⟨σ, hσ, f, hf, hdisplayed⟩ := hrun
  obtain ⟨list, hlist, hreplay⟩ := frame?_eq_some.mp hf
  have hcount := Scene.calls_per_list hlist hreplay 4
  rw [if_pos hdisplayed] at hcount
  exact ⟨σ, list, f, hσ, hlist, hreplay, hcount⟩

/-- The list of the pin holds the model, and the list within it holds the pin once more. -/
theorem called_twice : ∃ σ list f, Reachable σ ∧
    (σ.scene.compile 4).result = .ok list ∧ σ.scene.replay list (suppliedBy []) = .ok f ∧
    f.called = [4, 4] := by
  have hrun : ∃ σ ∈ (start 100.0).runAll pinInModel, ∃ f ∈ σ.frame? 4, f.called = [4, 4] := by
    decide +kernel
  obtain ⟨σ, hσ, f, hf, hcalled⟩ := hrun
  obtain ⟨list, hlist, hreplay⟩ := frame?_eq_some.mp hf
  exact ⟨σ, list, f, ⟨100.0, runs_of_runAll hσ⟩, hlist, hreplay, hcalled⟩

end Session

end SceneGraph
