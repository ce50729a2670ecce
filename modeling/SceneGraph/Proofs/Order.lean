import SceneGraph.Proofs.Growth

/-!
The order of a compiled list.

What a node emits follows its requirements entry by entry.  Each of its emissions comes in its
turn: when everything that the entries before it lead to is in the list, so that none of it
comes later.
-/

namespace SceneGraph

variable {ν κ : Type}

namespace Requirement

/-- The commands among some requirements, as emissions of the node that they are requirements
of. -/
def inlined (n : ν) (rs : List (Requirement ν κ)) : List (Emission ν κ) :=
  rs.filterMap fun
    | .command c => some (.inline n c)
    | _ => none

/-- The last entry of a list is the one in the middle, or stands behind it. -/
theorem append_singleton_eq {rs pre post : List (Requirement ν κ)} {r r' : Requirement ν κ}
    (h : rs ++ [r] = pre ++ r' :: post) :
    rs = pre ∧ r = r' ∨ ∃ post', rs = pre ++ r' :: post' := by
  rcases List.eq_nil_or_concat post with rfl | ⟨post', last, rfl⟩
  · exact .inl (by simpa using List.append_inj' h rfl)
  · rw [List.concat_eq_append, ← List.cons_append, ← List.append_assoc] at h
    exact .inr ⟨post', (List.append_inj' h rfl).1⟩

@[simp] theorem nodes_append (rs rs' : List (Requirement ν κ)) :
    nodes (rs ++ rs') = nodes rs ++ nodes rs' :=
  List.filterMap_append

@[simp] theorem inlined_append (n : ν) (rs rs' : List (Requirement ν κ)) :
    inlined n (rs ++ rs') = inlined n rs ++ inlined n rs' :=
  List.filterMap_append

theorem mem_inlined {n : ν} {rs : List (Requirement ν κ)} {e : Emission ν κ} :
    e ∈ inlined n rs ↔ ∃ c, .command c ∈ rs ∧ e = .inline n c := by
  simp only [inlined, List.mem_filterMap]
  constructor
  · rintro ⟨r, hr, heq⟩
    cases r with
    | gap | node m => cases heq
    | command c => exact ⟨c, hr, (Option.some.inj heq).symm⟩
  · rintro ⟨c, hc, rfl⟩
    exact ⟨_, hc, rfl⟩

end Requirement

namespace Emission

variable [DecidableEq ν]

/-- What a node emits, in order. -/
def ofNode (n : ν) (es : List (Emission ν κ)) : List (Emission ν κ) :=
  es.filter fun e => decide (e.owner = n)

@[simp] theorem ofNode_append (n : ν) (es es' : List (Emission ν κ)) :
    ofNode n (es ++ es') = ofNode n es ++ ofNode n es' :=
  List.filter_append ..

theorem ofNode_eq_nil_iff {n : ν} {es : List (Emission ν κ)} :
    ofNode n es = [] ↔ ∀ e ∈ es, e.owner ≠ n := by
  simp [ofNode, List.filter_eq_nil_iff]

end Emission

namespace RenderGraph

open Relation Requirement Emission

section

variable (g : RenderGraph ν κ) (isolated : List ν)

/-- None of some emissions belongs to anything that the nodes among some requirements lead
to. -/
def NothingDue (rs : List (Requirement ν κ)) (es : List (Emission ν κ)) : Prop :=
  ∀ m ∈ Requirement.nodes rs, ∀ k, ReflTransGen (g.Requires isolated) m k → ∀ e ∈ es, e.owner ≠ k

variable [DecidableEq ν]

/-- An emission stands where it is its node's turn: after all that some requirements call
for, and before nothing of it. -/
def InTurn (es : List (Emission ν κ)) (rs : List (Requirement ν κ)) (e : Emission ν κ) :
    Prop :=
  ∃ before after, es = before ++ e :: after ∧ ofNode e.owner before = inlined e.owner rs ∧
    g.NothingDue isolated rs (e :: after)

/-- The first part of a waiting node's requirements has been gone through. -/
structure Gathered (s : CompileState ν κ) (n : ν) (rs : List (Requirement ν κ)) : Prop where
  trace : ofNode n s.emissions = inlined n rs
  added : ∀ m ∈ Requirement.nodes rs, m ∈ s.added
  inTurn : ∀ pre c post, rs = pre ++ .command c :: post →
    g.InTurn isolated s.emissions pre (.inline n c)

variable (nested : Nested ν κ)

/-- A node has emitted all that it has to emit, each emission in its turn. -/
structure Settled (s : CompileState ν κ) (n : ν) (own : List κ) : Prop where
  contributes : g.Contributes nested isolated n own
  trace : ofNode n s.emissions = inlined n (g.requirements isolated n) ++ [.own n own]
  inTurn : ∀ pre c post, g.requirements isolated n = pre ++ .command c :: post →
    g.InTurn isolated s.emissions pre (.inline n c)
  ownInTurn : g.InTurn isolated s.emissions (g.requirements isolated n) (.own n own)

end

variable {g : RenderGraph ν κ} {nested : Nested ν κ} {isolated pending : List ν}
  {task : Task ν κ} {s t : CompileState ν κ} {n : ν}

theorem requires_closed (hclosed : ∀ n ∈ s.added, ∀ m, g.Requires isolated n m → m ∈ s.added)
    {m k : ν} (hm : m ∈ s.added) (hk : ReflTransGen (g.Requires isolated) m k) :
    k ∈ s.added := by
  induction hk with
  | refl => exact hm
  | tail _ hrequires ih => exact hclosed _ ih _ hrequires

/-- Emissions of nodes that are not in the list yet leave nothing due that is in it. -/
theorem nothingDue_of_fresh (hclosed : ∀ n ∈ s.added, ∀ m, g.Requires isolated n m → m ∈ s.added)
    {rs : List (Requirement ν κ)} (hrs : ∀ m ∈ Requirement.nodes rs, m ∈ s.added)
    {es : List (Emission ν κ)} (hes : ∀ e ∈ es, e.owner ∉ s.added) :
    g.NothingDue isolated rs es := by
  intro m hm k hk e he hke
  exact hes e he (hke ▸ requires_closed hclosed (hrs m hm) hk)

/-- A search appends what belongs to nodes that were not in the list. -/
theorem Search.appends (h : g.Search nested isolated pending task s t)
    (hwait : ∀ p ∈ pending, p ∉ s.added)
    (hwaiting : ∀ n, task.waiting? = some n → n ∈ pending) :
    ∃ new, t.emissions = s.emissions ++ new ∧
      ∀ e ∈ new, e.owner ∉ s.added ∧ (e.owner ∈ t.added ∨ task.waiting? = some e.owner) := by
  induction h with
  | present | gathered | resolvedAll => exact ⟨[], by simp, by simp⟩
  | @fresh pending s t n own hadded _ _ hgather _ ih =>
      obtain ⟨new, hnew, howners⟩ := ih (waits_append hwait hadded) (by simp [Task.waiting?])
      refine ⟨new ++ [.own n own], by simp [hnew], ?_⟩
      intro e he
      rcases List.mem_append.1 he with he | he
      · obtain ⟨hfresh, howner⟩ := howners e he
        refine ⟨hfresh, .inl ?_⟩
        rcases howner with howner | howner
        · exact List.mem_cons_of_mem n howner
        · obtain rfl : n = e.owner := by simpa [Task.waiting?] using howner
          exact List.mem_cons_self
      · obtain rfl : e = .own n own := by simpa using he
        exact ⟨hadded, .inl List.mem_cons_self⟩
  | gap _ ih | inHand _ _ ih => exact ih hwait hwaiting
  | @inline pending s t n c rs _ ih =>
      obtain ⟨new, hnew, howners⟩ := ih hwait hwaiting
      refine ⟨.inline n c :: new, by simp [hnew], ?_⟩
      intro e he
      rcases List.mem_cons.1 he with rfl | he
      · exact ⟨hwait n (hwaiting n rfl), .inr rfl⟩
      · exact howners e he
  | upstream hm hrest ihm ihrest =>
      obtain ⟨new, hnew, howners⟩ := ihm hwait (by simp [Task.waiting?])
      obtain ⟨newer, hnewer, howners'⟩ := ihrest (hm.waits hwait) hwaiting
      refine ⟨new ++ newer, by rw [hnewer, hnew, List.append_assoc], ?_⟩
      intro e he
      rcases List.mem_append.1 he with he | he
      · obtain ⟨hfresh, howner⟩ := howners e he
        exact ⟨hfresh, .inl (hrest.added_subset (by simpa [Task.waiting?] using howner))⟩
      · obtain ⟨hfresh, howner⟩ := howners' e he
        exact ⟨fun hmem => hfresh (hm.added_subset hmem), howner⟩
  | expand hn _ hchildren ihn ihchildren | child hn hchildren ihn ihchildren =>
      obtain ⟨new, hnew, howners⟩ := ihn hwait (by simp [Task.waiting?])
      obtain ⟨newer, hnewer, howners'⟩ := ihchildren (hn.waits hwait) (by simp [Task.waiting?])
      refine ⟨new ++ newer, by simp [hnewer, hnew], ?_⟩
      intro e he
      rcases List.mem_append.1 he with he | he
      · obtain ⟨hfresh, howner⟩ := howners e he
        exact ⟨hfresh, .inl (hchildren.added_subset (by simpa [Task.waiting?] using howner))⟩
      · obtain ⟨hfresh, howner⟩ := howners' e he
        exact ⟨fun hmem => hfresh (hn.added_subset hmem),
          .inl (by simpa [Task.waiting?] using howner)⟩

section

variable [DecidableEq ν]

theorem InTurn.append {es new : List (Emission ν κ)} {rs : List (Requirement ν κ)}
    {e : Emission ν κ} (h : g.InTurn isolated es rs e) (hnew : g.NothingDue isolated rs new) :
    g.InTurn isolated (es ++ new) rs e := by
  obtain ⟨before, after, rfl, htrace, hdue⟩ := h
  refine ⟨before, after ++ new, by simp, htrace, ?_⟩
  intro m hm k hk e' he'
  rw [← List.cons_append] at he'
  rcases List.mem_append.1 he' with he' | he'
  · exact hdue m hm k hk e' he'
  · exact hnew m hm k hk e' he'

/-- A waiting node's progress is not undone by a search for another node. -/
theorem Gathered.mono {rs : List (Requirement ν κ)} (hrs : g.Gathered isolated s n rs)
    (hclosed : ∀ n ∈ s.added, ∀ m, g.Requires isolated n m → m ∈ s.added)
    (hadded : s.added ⊆ t.added) {new : List (Emission ν κ)}
    (hnew : t.emissions = s.emissions ++ new) (hfresh : ∀ e ∈ new, e.owner ∉ s.added)
    (hother : ∀ e ∈ new, e.owner ≠ n) : g.Gathered isolated t n rs where
  trace := by rw [hnew, ofNode_append, hrs.trace, ofNode_eq_nil_iff.2 hother, List.append_nil]
  added m hm := hadded (hrs.added m hm)
  inTurn pre c post heq := by
    rw [hnew]
    refine (hrs.inTurn pre c post heq).append (nothingDue_of_fresh hclosed ?_ hfresh)
    intro m hm
    exact hrs.added m (by rw [heq, nodes_append]; exact List.mem_append_left _ hm)

/-- What a node has settled stays settled. -/
theorem Settled.mono {own : List κ} (hn : g.Settled isolated nested s n own)
    (hmem : n ∈ s.added)
    (hclosed : ∀ n ∈ s.added, ∀ m, g.Requires isolated n m → m ∈ s.added)
    {new : List (Emission ν κ)} (hnew : t.emissions = s.emissions ++ new)
    (hfresh : ∀ e ∈ new, e.owner ∉ s.added) : g.Settled isolated nested t n own where
  contributes := hn.contributes
  trace := by
    have hother : ∀ e ∈ new, e.owner ≠ n := fun e he heq => hfresh e he (heq ▸ hmem)
    rw [hnew, ofNode_append, hn.trace, ofNode_eq_nil_iff.2 hother, List.append_nil]
  inTurn pre c post heq := by
    rw [hnew]
    refine (hn.inTurn pre c post heq).append (nothingDue_of_fresh hclosed ?_ hfresh)
    intro m hm
    exact hclosed n hmem m (by rw [Requires, heq]; exact List.mem_append_left _ (mem_nodes.1 hm))
  ownInTurn := by
    rw [hnew]
    refine hn.ownInTurn.append (nothingDue_of_fresh hclosed ?_ hfresh)
    exact fun m hm => hclosed n hmem m (mem_nodes.1 hm)

/-- An entry without a command of its own is passed once its node is in the list. -/
theorem Gathered.pass {rs : List (Requirement ν κ)} (hrs : g.Gathered isolated s n rs)
    {r : Requirement ν κ} (hcommand : ∀ c, r ≠ .command c)
    (hnode : ∀ m, r = .node m → m ∈ s.added) : g.Gathered isolated s n (rs ++ [r]) where
  trace := by
    cases r with
    | command c => exact (hcommand c rfl).elim
    | gap | node m => simpa [inlined] using hrs.trace
  added m hm := by
    rw [nodes_append] at hm
    rcases List.mem_append.1 hm with hm | hm
    · exact hrs.added m hm
    · exact hnode m (by simpa [eq_comm] using hm)
  inTurn pre c post heq := by
    rcases append_singleton_eq heq with ⟨-, hr⟩ | ⟨post', hrs'⟩
    · exact (hcommand c hr).elim
    · exact hrs.inTurn pre c post' hrs'

/-- Emitting the next inline command of a waiting node. -/
theorem Gathered.inline {rs : List (Requirement ν κ)} (hrs : g.Gathered isolated s n rs)
    (hclosed : ∀ n ∈ s.added, ∀ m, g.Requires isolated n m → m ∈ s.added)
    (hwait : n ∉ s.added) (c : κ) :
    g.Gathered isolated (s.emit (.inline n c)) n (rs ++ [.command c]) where
  trace := by
    rw [CompileState.emissions_emit, ofNode_append, hrs.trace, inlined_append]
    simp [ofNode, inlined]
  added m hm := hrs.added m (by simpa using hm)
  inTurn pre c' post heq := by
    have hdue : ∀ rs', (∀ m ∈ Requirement.nodes rs', m ∈ s.added) →
        g.NothingDue isolated rs' [.inline n c] := fun rs' hrs' =>
      nothingDue_of_fresh hclosed hrs' (by simpa using hwait)
    rcases append_singleton_eq heq with ⟨rfl, hc⟩ | ⟨post', rfl⟩
    · -- It is the new command itself.
      obtain rfl : c = c' := by simpa using hc
      exact ⟨s.emissions, [], by simp, hrs.trace, hdue rs hrs.added⟩
    · refine (hrs.inTurn pre c' post' rfl).append (hdue pre fun m hm => hrs.added m ?_)
      rw [nodes_append]
      exact List.mem_append_left _ hm

/-- The end of a waiting node: its own commands enter the list. -/
theorem Gathered.settle {own : List κ}
    (hrs : g.Gathered isolated s n (g.requirements isolated n))
    (hclosed : ∀ n ∈ s.added, ∀ m, g.Requires isolated n m → m ∈ s.added)
    (hwait : n ∉ s.added) (hown : g.Contributes nested isolated n own) :
    g.Settled isolated nested (s.complete n own) n own where
  contributes := hown
  trace := by simp [ofNode, ← hrs.trace]
  inTurn pre c post heq := by
    refine (hrs.inTurn pre c post heq).append
      (nothingDue_of_fresh hclosed ?_ (by simpa using hwait))
    intro m hm
    exact hrs.added m (by rw [heq, nodes_append]; exact List.mem_append_left _ hm)
  ownInTurn :=
    ⟨s.emissions, [], by simp, hrs.trace,
      nothingDue_of_fresh hclosed hrs.added (by simpa using hwait)⟩

/-- The state of a compile while some nodes wait.  The nodes in the list are settled, and what
else was emitted belongs to the waiting ones. -/
structure Standing (g : RenderGraph ν κ) (nested : Nested ν κ) (isolated pending : List ν)
    (s : CompileState ν κ) : Prop where
  waits : ∀ p ∈ pending, p ∉ s.added
  closed : ∀ n ∈ s.added, ∀ m, g.Requires isolated n m → m ∈ s.added
  owners : ∀ e ∈ s.emissions, e.owner ∈ s.added ∨ e.owner ∈ pending
  settled : ∀ n ∈ s.added, ∃ own, g.Settled isolated nested s n own

namespace Standing

variable (hs : g.Standing nested isolated pending s)
include hs

/-- One more node waits. -/
theorem wait (hadded : n ∉ s.added) : g.Standing nested isolated (pending ++ [n]) s where
  waits := waits_append hs.waits hadded
  closed := hs.closed
  owners e he := (hs.owners e he).imp_right (List.mem_append_left _)
  settled := hs.settled

/-- A node that neither is in the list nor waits has emitted nothing. -/
theorem gathered_nil (hadded : n ∉ s.added) (hpending : n ∉ pending) :
    g.Gathered isolated s n [] := by
  refine ⟨ofNode_eq_nil_iff.2 fun e he heq => ?_, by simp [Requirement.nodes], by simp⟩
  rcases hs.owners e he with howner | howner
  · exact hadded (heq ▸ howner)
  · exact hpending (heq ▸ howner)

/-- A waiting node emits an inline command. -/
theorem emit (hn : n ∈ pending) (c : κ) :
    g.Standing nested isolated pending (s.emit (.inline n c)) where
  waits := hs.waits
  closed := hs.closed
  owners := by simpa [or_imp, forall_and] using ⟨hs.owners, .inr hn⟩
  settled k hk := by
    obtain ⟨own, hown⟩ := hs.settled k hk
    exact ⟨own, hown.mono hk hs.closed rfl (by simpa using hs.waits n hn)⟩

/-- The children of a node are taken in hand. -/
theorem expand (n : ν) : g.Standing nested isolated pending (s.expand n) where
  waits := hs.waits
  closed := hs.closed
  owners := hs.owners
  settled k hk := by
    obtain ⟨own, hown⟩ := hs.settled k hk
    exact ⟨own, hown.contributes, hown.trace, hown.inTurn, hown.ownInTurn⟩

end Standing

/-- The last node that waited has gone through its requirements and enters the list. -/
theorem Standing.complete {own : List κ} (hs : g.Standing nested isolated (pending ++ [n]) s)
    (hpending : n ∉ pending) (hn : g.Gathered isolated s n (g.requirements isolated n))
    (hown : g.Contributes nested isolated n own) :
    g.Standing nested isolated pending (s.complete n own) where
  waits := waits_complete hs.waits hpending own
  closed k hk m hm := by
    refine List.mem_cons_of_mem n ?_
    rcases List.mem_cons.1 hk with rfl | hk
    · exact hn.added m (mem_nodes.2 hm)
    · exact hs.closed k hk m hm
  owners e he := by
    rcases List.mem_append.1 he with he | he
    · rcases hs.owners e he with howner | howner
      · exact .inl (List.mem_cons_of_mem n howner)
      · rcases List.mem_append.1 howner with howner | howner
        · exact .inr howner
        · exact .inl (List.mem_cons.2 (.inl (List.mem_singleton.1 howner)))
    · obtain rfl := List.mem_singleton.1 he
      exact .inl List.mem_cons_self
  settled k hk := by
    have hwait : n ∉ s.added := hs.waits n (by simp)
    rcases List.mem_cons.1 hk with rfl | hk
    · exact ⟨own, hn.settle hs.closed hwait hown⟩
    · obtain ⟨ownk, hsettled⟩ := hs.settled k hk
      exact ⟨ownk, hsettled.mono hk hs.closed rfl (by simpa using hwait)⟩

/-- A waiting node gets over the next node among its requirements. -/
theorem Gathered.node {rs : List (Requirement ν κ)} {m : ν} (hrs : g.Gathered isolated s n rs)
    (hs : g.Standing nested isolated pending s) (hn : n ∈ pending)
    (h : g.Search nested isolated pending (.require m) s t) :
    g.Gathered isolated t n (rs ++ [.node m]) := by
  obtain ⟨new, hnew, hfresh⟩ := h.appends hs.waits (by simp [Task.waiting?])
  have hother : ∀ e ∈ new, e.owner ≠ n := by
    intro e he heq
    have howner : e.owner ∈ t.added := by simpa [Task.waiting?] using (hfresh e he).2
    exact h.waits hs.waits n hn (heq ▸ howner)
  have hkept := hrs.mono hs.closed h.added_subset hnew (fun e he => (hfresh e he).1) hother
  refine hkept.pass (by simp) ?_
  rintro k ⟨⟩
  exact h.achieved

/-- A search leaves every node in the list settled, and a waiting node goes on from where it
was. -/
theorem Search.standing (h : g.Search nested isolated pending task s t)
    (hs : g.Standing nested isolated pending s)
    (hwaiting : ∀ n, task.waiting? = some n → n ∈ pending) :
    g.Standing nested isolated pending t ∧
      ∀ n rs, task = .gather n rs → ∀ done, g.Gathered isolated s n done →
        g.Gathered isolated t n (done ++ rs) := by
  induction h with
  | present | resolvedAll => exact ⟨hs, by simp⟩
  | gathered => exact ⟨hs, by rintro n rs ⟨⟩ done hdone; simpa using hdone⟩
  | fresh hadded hpending _ _ hown ih =>
      obtain ⟨ht, hgathered⟩ := ih (hs.wait hadded) (by simp [Task.waiting?])
      have hstart := hs.gathered_nil hadded hpending
      exact ⟨ht.complete hpending (hgathered _ _ rfl [] hstart) hown, by simp⟩
  | gap _ ih =>
      obtain ⟨ht, hgathered⟩ := ih hs hwaiting
      refine ⟨ht, ?_⟩
      rintro n _ ⟨⟩ done hdone
      have hskip := hdone.pass (r := .gap) (by simp) (by simp)
      simpa using hgathered _ _ rfl _ hskip
  | @inline pending s t n c rs _ ih =>
      have hn : n ∈ pending := hwaiting n rfl
      obtain ⟨ht, hgathered⟩ := ih (hs.emit hn c) hwaiting
      refine ⟨ht, ?_⟩
      rintro n _ ⟨⟩ done hdone
      simpa using hgathered n _ rfl _ (hdone.inline hs.closed (hs.waits n hn) c)
  | @upstream pending s t u n m rs hm _ ihm ihrest =>
      obtain ⟨ht, -⟩ := ihm hs (by simp [Task.waiting?])
      obtain ⟨hu, hgathered⟩ := ihrest ht hwaiting
      refine ⟨hu, ?_⟩
      rintro n _ ⟨⟩ done hdone
      simpa using hgathered n _ rfl _ (hdone.node hs (hwaiting n rfl) hm)
  | inHand _ _ ih => exact ⟨(ih hs (by simp [Task.waiting?])).1, by simp⟩
  | @expand s t u n _ _ _ ihn ihchildren =>
      obtain ⟨ht, -⟩ := ihn hs (by simp [Task.waiting?])
      exact ⟨(ihchildren (ht.expand n) (by simp [Task.waiting?])).1, by simp⟩
  | child _ _ ihn ihrest =>
      obtain ⟨ht, -⟩ := ihn hs (by simp [Task.waiting?])
      exact ⟨(ihrest ht (by simp [Task.waiting?])).1, by simp⟩

end

end RenderGraph

end SceneGraph
