import Mathlib.Data.List.Induction
import SceneGraph.Proofs.Editing
import SceneGraph.Proofs.Footprint

/-!
Who is attached to what.

A link between a child and its container is stored at both ends.  Main statement: the two ends
agree at all times, a container lists a child once at most, and what it lists are the nodes
that were attached to it last, in the order in which that happened (`Session.attachment`).
-/

namespace SceneGraph

/-- A node was attached to a container, or taken away from the one it was attached to. -/
structure LinkEvent where
  child : NodeId
  parent : Option NodeId
  deriving DecidableEq

namespace LinkEvent

/-- The events after which nothing happened to the same child, in order. -/
def latest : List LinkEvent → List LinkEvent
  | [] => []
  | e :: es => if e.child ∈ es.map child then latest es else e :: latest es

/-- The children that the latest events attached to a container, in order. -/
def attached (log : List LinkEvent) (p : NodeId) : List NodeId :=
  (latest log).filterMap fun e => if e.parent = some p then some e.child else none

/-- The container that the latest event on a child attached it to. -/
def holder? (log : List LinkEvent) (c : NodeId) : Option NodeId :=
  ((latest log).find? fun e => e.child = c).bind parent

variable {log : List LinkEvent} {e : LinkEvent} {p c : NodeId}

theorem latest_concat (log : List LinkEvent) (e : LinkEvent) :
    latest (log ++ [e]) = (latest log).filter (fun e' => e'.child ≠ e.child) ++ [e] := by
  induction log with
  | nil => simp [latest]
  | cons first log ih =>
      have hiff : first.child ∈ (log ++ [e]).map child ↔
          first.child ∈ log.map child ∨ first.child = e.child := by
        rw [List.map_append, List.mem_append, List.map_singleton, List.mem_singleton]
      rw [List.cons_append, latest, latest, ih]
      by_cases hmem : first.child ∈ log.map child
      · rw [if_pos (hiff.mpr (.inl hmem)), if_pos hmem]
      · by_cases heq : first.child = e.child
        · rw [if_pos (hiff.mpr (.inr heq)), if_neg hmem, List.filter_cons_of_neg (by simp [heq])]
        · rw [if_neg fun h => (hiff.mp h).elim hmem heq, if_neg hmem,
            List.filter_cons_of_pos (by simp [heq]), List.cons_append]

theorem attached_concat (log : List LinkEvent) (e : LinkEvent) (p : NodeId) :
    attached (log ++ [e]) p =
      (attached log p).filter (· ≠ e.child) ++ if e.parent = some p then [e.child] else [] := by
  have hkept : ((latest log).filter fun e' => e'.child ≠ e.child).filterMap
      (fun e' => if e'.parent = some p then some e'.child else none) =
      (attached log p).filter (· ≠ e.child) := by
    rw [attached, List.filterMap_filter, List.filter_filterMap]
    congr 1
    funext e'
    by_cases hparent : e'.parent = some p <;> by_cases hchild : e'.child = e.child <;>
      simp [hparent, hchild, Option.filter]
  rw [attached, latest_concat, List.filterMap_append, hkept]
  by_cases hparent : e.parent = some p <;> simp [hparent]

theorem holder?_concat (log : List LinkEvent) (e : LinkEvent) (c : NodeId) :
    holder? (log ++ [e]) c = if c = e.child then e.parent else holder? log c := by
  rw [holder?, latest_concat, List.find?_append]
  by_cases hc : c = e.child
  · subst hc
    have hnone : ((latest log).filter fun e' => e'.child ≠ e.child).find?
        (fun e' => e'.child = e.child) = none := by
      rw [List.find?_filter, List.find?_eq_none]
      simp
    rw [hnone, Option.none_or, List.find?_singleton, if_pos (by simp), if_pos rfl]
    rfl
  · have hkept : ((latest log).filter fun e' => e'.child ≠ e.child).find?
        (fun e' => e'.child = c) = (latest log).find? fun e' => e'.child = c := by
      rw [List.find?_filter]
      congr 1
      funext e'
      by_cases heq : e'.child = c <;> simp [heq, hc]
    rw [hkept, if_neg hc, holder?]
    rw [List.find?_singleton, if_neg (by simpa using Ne.symm hc), Option.or_none]

/-- Children are listed where they were attached last. -/
theorem mem_attached_iff : c ∈ attached log p ↔ holder? log c = some p := by
  induction log using List.reverseRecOn with
  | nil => simp [attached, holder?, latest]
  | append_singleton log e ih =>
      rw [attached_concat, holder?_concat, List.mem_append, List.mem_filter, ih]
      by_cases hc : c = e.child
      · by_cases hparent : e.parent = some p <;> simp [hc, hparent]
      · by_cases hparent : e.parent = some p <;> simp [hc, hparent]

theorem nodup_attached (log : List LinkEvent) (p : NodeId) : (attached log p).Nodup := by
  induction log using List.reverseRecOn with
  | nil => exact List.nodup_nil
  | append_singleton log e ih =>
      rw [attached_concat]
      refine List.nodup_append.mpr ⟨ih.filter _, by split <;> simp, fun c hc c' hc' => ?_⟩
      have hne : c ≠ e.child := by simpa using (List.mem_filter.mp hc).2
      by_cases hparent : e.parent = some p
      · rw [if_pos hparent] at hc'
        rwa [List.mem_singleton.mp hc']
      · rw [if_neg hparent] at hc'
        cases hc'

end LinkEvent

/-- The children of a node; a node that is no container has none. -/
def Node.kids (n : Node) : List NodeId :=
  (n.container?.map Container.children).getD []

namespace Node

variable {n : Node}

@[simp] theorem kids_wiring (n : Node) : n.wiring.kids = n.kids := by
  cases n <;> rfl

@[simp] theorem kids_setParent (parent : Option NodeId) (n : Node) :
    (n.setParent parent).kids = n.kids := by
  cases n <;> rfl

@[simp] theorem parent?_mapChildren (f : List NodeId → List NodeId) (n : Node) :
    (n.mapContainer fun c => { c with children := f c.children }).parent? = n.parent? := by
  cases n <;> rfl

theorem kids_mapChildren {f : List NodeId → List NodeId} (h : f [] = [] ∨ n.kind.IsContainer) :
    (n.mapContainer fun c => { c with children := f c.children }).kids = f n.kids := by
  cases n with
  | part p | pinnedPart p => rfl
  | _ => exact (h.elim (fun hnil => hnil.symm) False.elim : ([] : List NodeId) = f [])

theorem parent?_setParent {parent : Option NodeId} (h : parent = none ∨ n.kind.IsPlaced) :
    (n.setParent parent).parent? = parent := by
  cases n with
  | part p | pin p | pinnedPart p => rfl
  | _ => exact (h.elim (fun hnone => hnone.symm) fun hplaced => (hplaced.elim id nofun).elim :
      none = parent)

end Node

namespace Scene

variable {s t u : Scene} {p c x id : NodeId}

/-- The children of a place in the scene. -/
def kids (s : Scene) (p : NodeId) : List NodeId :=
  (s.nodes[p]?.map Node.kids).getD []

/-- The container that a place in the scene is attached to. -/
def holder? (s : Scene) (c : NodeId) : Option NodeId :=
  s.nodes[c]?.bind Node.parent?

theorem kids_of_node {n : Node} (hn : s.node p = .ok n) : s.kids p = n.kids := by
  rw [kids, node_eq_ok.mp hn]
  rfl

theorem holder?_of_node {n : Node} (hn : s.node c = .ok n) : s.holder? c = n.parent? := by
  rw [holder?, node_eq_ok.mp hn]
  rfl

theorem links_of_not_lt (h : ¬ id < s.count) : s.kids id = [] ∧ s.holder? id = none := by
  have h : s.nodes.size ≤ id := Nat.le_of_not_lt h
  simp [kids, holder?, h]

theorem children_eq_ok (hp : p < s.count) : s.children p = .ok (s.kids p) := by
  obtain ⟨n, hn⟩ := node_of_lt_count hp
  rw [kids_of_node hn, children, hn]
  rfl

theorem kids_eq_of_children {l : List NodeId} (h : s.children p = .ok l) : s.kids p = l := by
  obtain ⟨n, hn, hl⟩ := except_bind_eq_ok.mp h
  rw [kids_of_node hn]
  exact Except.ok.inj hl

theorem parent?_eq_ok {h : Option NodeId} (hc : c < s.count) :
    s.parent? c = .ok h ↔ s.holder? c = h := by
  obtain ⟨n, hn⟩ := node_of_lt_count hc
  rw [holder?_of_node hn, parent?, hn]
  exact ⟨Except.ok.inj, congrArg Except.ok⟩

theorem kids_of_wiring (h : t.wiring = s.wiring) : t.kids = s.kids := by
  funext p
  rw [kids, kids, map_node_eq_of_wiring h Node.kids_wiring]

theorem holder?_of_wiring (h : t.wiring = s.wiring) : t.holder? = s.holder? := by
  funext c
  rw [holder?, holder?, bind_node_of_wiring h Node.parent?_wiring]

theorem kids_update {f : Node → Node} {n : Node} (h : s.update id f = .ok t)
    (hn : s.node id = .ok n) (p : NodeId) :
    t.kids p = if p = id then (f n).kids else s.kids p := by
  unfold kids
  rw [nodes_update h]
  by_cases hp : p = id
  · subst hp
    simp [node_eq_ok.mp hn]
  · simp [hp]

theorem holder?_update {f : Node → Node} {n : Node} (h : s.update id f = .ok t)
    (hn : s.node id = .ok n) (c : NodeId) :
    t.holder? c = if c = id then (f n).parent? else s.holder? c := by
  unfold holder?
  rw [nodes_update h]
  by_cases hc : c = id
  · subst hc
    simp [node_eq_ok.mp hn]
  · simp [hc]

theorem node_of_update {f : Node → Node} (h : s.update id f = .ok t) :
    ∃ n, s.node id = .ok n := by
  unfold update at h
  split at h
  · next hid => exact node_of_lt_count hid
  · cases h

theorem mapChildren_links {f : List NodeId → List NodeId} (hf : f [] = [] ∨ s.IsContainer p)
    (h : s.update p (Node.mapContainer fun c => { c with children := f c.children }) = .ok t) :
    (∀ q, t.kids q = if q = p then f (s.kids p) else s.kids q) ∧ t.holder? = s.holder? := by
  obtain ⟨n, hn⟩ := node_of_update h
  have hkind : f [] = [] ∨ n.kind.IsContainer := hf.imp_right fun ⟨n', hn', hkind⟩ =>
    node_unique hn' hn ▸ hkind
  refine ⟨fun q => ?_, funext fun c => ?_⟩
  · rw [kids_update h hn, Node.kids_mapChildren hkind, kids_of_node hn]
  · rw [holder?_update h hn, Node.parent?_mapChildren]
    split
    · next heq => rw [heq, holder?_of_node hn]
    · rfl

theorem setParent_links {parent : Option NodeId} (hc : parent = none ∨ s.IsPlaced c)
    (h : s.update c (Node.setParent parent) = .ok t) :
    t.kids = s.kids ∧ ∀ x, t.holder? x = if x = c then parent else s.holder? x := by
  obtain ⟨n, hn⟩ := node_of_update h
  have hkind : parent = none ∨ n.kind.IsPlaced := hc.imp_right fun ⟨n', hn', hkind⟩ =>
    node_unique hn' hn ▸ hkind
  refine ⟨funext fun q => ?_, fun x => ?_⟩
  · rw [kids_update h hn, Node.kids_setParent]
    split
    · next heq => rw [heq, kids_of_node hn]
    · rfl
  · rw [holder?_update h hn, Node.parent?_setParent hkind]

theorem unlink_succeeds (hp : p < s.count) (hc : c < s.count) : ∃ r, s.unlink p c = .ok r := by
  refine bind_succeeds (children_eq_ok hp) ?_
  split
  · obtain ⟨t, ht⟩ := update_of_lt_count hp
      (Node.mapContainer fun k => { k with children := k.children.erase c })
    obtain ⟨u, hu⟩ := update_of_lt_count (count_update ht ▸ hc) (Node.setParent none)
    exact bind_succeeds ht (bind_succeeds hu ⟨_, rfl⟩)
  · exact ⟨_, rfl⟩

/-- Taking a child away from a place where it may be. -/
theorem removeChild_succeeds (hp : p < s.count) (hc : c < s.count) :
    ∃ r, s.removeChild p c = .ok r := by
  obtain ⟨r, hr⟩ := unlink_succeeds hp hc
  exact bind_succeeds hr ⟨_, rfl⟩

/-- Both ends of each link agree, and no child is listed twice. -/
structure Linked (s : Scene) : Prop where
  mem_iff : ∀ p c, c ∈ s.kids p ↔ s.holder? c = some p
  nodup : ∀ p, (s.kids p).Nodup

/-- The links of a child are gone, and no others. -/
structure Unlinks (s t : Scene) (c : NodeId) : Prop where
  kids : ∀ p, t.kids p = (s.kids p).erase c
  holder : ∀ x, t.holder? x = if x = c then none else s.holder? x

namespace Linked

variable (hs : s.Linked)
include hs

theorem unlink {r : Bool × Scene} (h : s.unlink p c = .ok r) (hc : s.holder? c = some p) :
    Unlinks s r.2 c := by
  have hmem := (hs.mem_iff p c).mpr hc
  rcases unlink_cases h with ⟨-, -, t, ht, hr⟩ | ⟨hnot, -⟩
  · obtain ⟨hkids, hholder⟩ := mapChildren_links (f := fun l => l.erase c) (.inl rfl) ht
    obtain ⟨hkids', hholder'⟩ := setParent_links (.inl rfl) hr
    refine ⟨fun q => ?_, fun x => by rw [hholder', hholder]⟩
    rw [hkids', hkids]
    split
    · next heq => rw [heq]
    · next hne =>
      refine (List.erase_of_not_mem fun hq => hne ?_).symm
      exact Option.some.inj (((hs.mem_iff q c).mp hq).symm.trans hc)
  · cases hl : s.children p with
    | error e =>
        obtain ⟨l, hl', -⟩ := except_bind_eq_ok.mp h
        rw [hl] at hl'
        cases hl'
    | ok l =>
        rw [hl] at hnot
        rw [kids_eq_of_children hl] at hmem
        exact (hnot hmem).elim

theorem detach (h : s.detach c = .ok t) : Unlinks s t c := by
  obtain ⟨holder, hholder, hrest⟩ := except_bind_eq_ok.mp h
  have hlt : c < s.count := by
    obtain ⟨n, hn, -⟩ := except_bind_eq_ok.mp hholder
    exact lt_count_of_node hn
  rw [parent?_eq_ok hlt] at hholder
  cases holder with
  | none =>
      obtain rfl := Except.ok.inj hrest
      refine ⟨fun p => (List.erase_of_not_mem fun hp => ?_).symm, fun x => ?_⟩
      · rw [hs.mem_iff, hholder] at hp
        cases hp
      · split
        · next heq => rw [heq, hholder]
        · rfl
  | some p =>
      obtain ⟨r, hr, ht⟩ := except_bind_eq_ok.mp hrest
      obtain rfl := Except.ok.inj ht
      exact hs.unlink hr hholder

/-- A child is attached behind the others, after it was taken away from where it was. -/
theorem addChild (hw : s.WellFormed) (hp : s.IsContainer p) (hc : s.IsPlaced c)
    (h : s.addChild p c = .ok t) :
    (∀ q, t.kids q = (s.kids q).erase c ++ if q = p then [c] else []) ∧
      ∀ x, t.holder? x = if x = c then some p else s.holder? x := by
  obtain ⟨s₁, h₁, h⟩ := except_bind_eq_ok.mp h
  obtain ⟨s₂, h₂, h⟩ := except_bind_eq_ok.mp h
  obtain ⟨s₃, h₃, h⟩ := except_bind_eq_ok.mp h
  cases h
  have hdetach := hs.detach h₁
  have hbuilds := detach_builds hw h₁
  have hp₁ : s₁.IsContainer p := hp.mono hbuilds.develops
  obtain ⟨hkids, hholder⟩ := setParent_links (.inr (hc.mono hbuilds.develops)) h₂
  have hp₂ : s₂.IsContainer p := hp₁.mono <|
    .update h₂ fun n _ => Node.develops_setParent _ n
  obtain ⟨hkids', hholder'⟩ := mapChildren_links (f := fun l => l ++ [c]) (.inr hp₂) h₃
  refine ⟨fun q => ?_, fun x => ?_⟩
  · show s₃.kids q = _
    rw [hkids', hkids, hdetach.kids, hdetach.kids]
    split
    · next heq => rw [heq]
    · rw [List.append_nil]
  · show s₃.holder? x = _
    rw [hholder', hholder, hdetach.holder]
    split <;> rfl

/-- A child is taken away exactly if it was attached there; else nothing happens. -/
theorem removeChild {removed : Bool} (h : s.removeChild p c = .ok (removed, t)) :
    if removed then s.holder? c = some p ∧ Unlinks s t c ∧ t.generation = s.generation + 1
    else s.holder? c ≠ some p ∧ t = s := by
  obtain ⟨⟨removed', u⟩, hu, hr⟩ := except_bind_eq_ok.mp h
  cases hr
  obtain ⟨l, hl, -⟩ := except_bind_eq_ok.mp hu
  have hiff : c ∈ (s.children p).toOption.getD [] ↔ s.holder? c = some p := by
    rw [← hs.mem_iff, kids_eq_of_children hl, hl]
    rfl
  rcases unlink_cases hu with ⟨hmem, hremoved, -⟩ | ⟨hmem, hr⟩
  · obtain rfl : removed' = true := hremoved
    have hunlinks := hs.unlink hu (hiff.mp hmem)
    exact ⟨hiff.mp hmem, ⟨hunlinks.kids, hunlinks.holder⟩,
      congrArg (· + 1) (unlink_steady hu).generation⟩
  · cases hr
    exact ⟨fun hc => hmem (hiff.mpr hc), rfl⟩

end Linked

/-- What is added has neither parent nor children, and what it is added for keeps its own. -/
theorem Adds.links {named : NodeId → Prop} {owner : NodeId} {f : Node → Node} {news : List Node}
    (h : Adds named s owner f news) :
    (∀ n ∈ news, n.kids = [] ∧ n.parent? = none) ∧
      ∀ n, (f n).kids = n.kids ∧ (f n).parent? = n.parent? := by
  cases h with
  | blank hn => exact ⟨by cases hn <;> simp [Node.kids, Node.container?, Node.parent?], by simp⟩
  | calculated => exact ⟨by simp [cellNodes, Node.kids, Node.container?, Node.parent?], by simp⟩
  | cell slot =>
      refine ⟨by simp [cellNodes, Node.kids, Node.container?, Node.parent?], fun n => ?_⟩
      cases slot with
      | target slot axis =>
          show (n.fillTarget slot axis _).kids = _ ∧ (n.fillTarget slot axis _).parent? = _
          unfold Node.fillTarget
          cases n.attachment? slot with
          | none => exact ⟨rfl, rfl⟩
          | some a => cases n <;> exact ⟨rfl, rfl⟩
      | _ => cases n <;> exact ⟨rfl, rfl⟩
  | transformation | attach =>
      refine ⟨by simp [cellNodes, Node.kids, Node.container?, Node.parent?], fun n => ?_⟩
      cases n <;> exact ⟨rfl, rfl⟩
  | _ =>
      refine ⟨by simp [Node.kids, Node.container?, Node.parent?], fun n => ?_⟩
      cases n <;> exact ⟨rfl, rfl⟩

theorem Extends.links {owner : NodeId} {f : Node → Node} {news : List Node}
    (h : s.Extends t owner f news) (hnews : ∀ n ∈ news, n.kids = [] ∧ n.parent? = none)
    (hf : ∀ n, (f n).kids = n.kids ∧ (f n).parent? = n.parent?) :
    t.kids = s.kids ∧ t.holder? = s.holder? := by
  have hnode : ∀ id, t.kids id = s.kids id ∧ t.holder? id = s.holder? id := by
    intro id
    by_cases hs : id < s.count
    · obtain ⟨n, hn⟩ := node_of_lt_count hs
      have ht := h.old id n hn
      rw [kids_of_node hn, holder?_of_node hn, kids_of_node ht, holder?_of_node ht]
      split
      · exact hf n
      · exact ⟨rfl, rfl⟩
    · rw [(links_of_not_lt hs).1, (links_of_not_lt hs).2]
      by_cases ht : id < t.count
      · obtain ⟨n', hn'⟩ := node_of_lt_count ht
        rcases h.node_cases hn' with ⟨n, hn, -⟩ | ⟨i, -, hi⟩
        · exact absurd (lt_count_of_node hn) hs
        · rw [kids_of_node hn', holder?_of_node hn']
          exact hnews n' (List.mem_of_getElem? hi)
      · exact links_of_not_lt ht
  exact ⟨funext fun id => (hnode id).1, funext fun id => (hnode id).2⟩

theorem Changes.links {named : NodeId → Prop} (h : Changes named s t) :
    t.kids = s.kids ∧ t.holder? = s.holder? := by
  induction h with
  | refl => exact ⟨rfl, rfl⟩
  | tail _ hstep ih =>
      obtain ⟨hkids, hholder⟩ := ih
      rw [← hkids, ← hholder]
      cases hstep with
      | add hadds h => exact h.links hadds.links.1 hadds.links.2
      | inPlace h => exact ⟨kids_of_wiring h, holder?_of_wiring h⟩

end Scene

/-- What an operation does to links, in order. -/
def Operation.linkEvents (s : Scene) : Operation → List LinkEvent
  | .addChild parent child => [⟨child, some parent⟩]
  | .addChildren parent children => children.map fun child => ⟨child, some parent⟩
  | .removeChild parent child =>
    match s.removeChild parent child with
    | .ok (true, _) => [⟨child, none⟩]
    | _ => []
  | _ => []

/-- The links of a scene are as its log has them. -/
structure Scene.Follows (s : Scene) (log : List LinkEvent) : Prop where
  kids : ∀ p, s.kids p = LinkEvent.attached log p
  holder : ∀ c, s.holder? c = LinkEvent.holder? log c

namespace Scene.Follows

variable {s t : Scene} {log : List LinkEvent} {p c : NodeId}

theorem linked (h : s.Follows log) : s.Linked where
  mem_iff p c := by rw [h.kids, h.holder, LinkEvent.mem_attached_iff]
  nodup p := h.kids p ▸ LinkEvent.nodup_attached log p

/-- Going on with an event. -/
theorem concat (h : s.Follows log) (e : LinkEvent)
    (hkids : ∀ p, t.kids p =
      (s.kids p).erase e.child ++ if e.parent = some p then [e.child] else [])
    (hholder : ∀ x, t.holder? x = if x = e.child then e.parent else s.holder? x) :
    t.Follows (log ++ [e]) where
  kids p := by
    rw [hkids, (h.linked.nodup p).erase_eq_filter, h.kids, LinkEvent.attached_concat]
    simp [bne, beq_eq_decide]
  holder c := by rw [hholder, h.holder, LinkEvent.holder?_concat]

theorem addChild (h : s.Follows log) (hw : s.WellFormed) (hp : s.IsContainer p)
    (hc : s.IsPlaced c) (ht : s.addChild p c = .ok t) : t.Follows (log ++ [⟨c, some p⟩]) := by
  obtain ⟨hkids, hholder⟩ := h.linked.addChild hw hp hc ht
  refine h.concat _ (fun q => ?_) hholder
  rw [hkids]
  by_cases hq : q = p
  · simp [hq]
  · simp [hq, Ne.symm hq]

theorem addChildren {children : List NodeId} (h : s.Follows log) (hw : s.WellFormed)
    (hp : s.IsContainer p) (hchildren : ∀ c ∈ children, s.IsPlaced c)
    (ht : s.addChildren p children = .ok t) :
    t.Follows (log ++ children.map fun c => ⟨c, some p⟩) := by
  unfold Scene.addChildren at ht
  induction children generalizing s log with
  | nil =>
      cases ht
      simpa using h
  | cons c children ih =>
      rw [List.foldlM_cons] at ht
      obtain ⟨u, hu, hrest⟩ := except_bind_eq_ok.mp ht
      rw [List.forall_mem_cons] at hchildren
      have hbuilds := addChild_builds hw hp hchildren.1 hu
      have hall := ih (h.addChild hw hp hchildren.1 hu) hbuilds.wellFormed
        (hp.mono hbuilds.develops) (fun c hc => (hchildren.2 c hc).mono hbuilds.develops) hrest
      rwa [List.append_assoc] at hall

theorem removeChild {r : Bool × Scene} (h : s.Follows log) (ht : s.removeChild p c = .ok r) :
    r.2.Follows (log ++ Operation.linkEvents s (.removeChild p c)) := by
  obtain ⟨removed, t⟩ := r
  have hcases := h.linked.removeChild ht
  have hevents : Operation.linkEvents s (.removeChild p c) =
      if removed then [⟨c, none⟩] else [] := by
    show (match s.removeChild p c with | .ok (true, _) => _ | _ => _) = _
    rw [ht]
    cases removed <;> rfl
  rw [hevents]
  cases removed with
  | true =>
      obtain ⟨-, hunlinks, -⟩ := hcases
      exact h.concat ⟨c, none⟩ (fun q => by simpa using hunlinks.kids q) hunlinks.holder
  | false =>
      obtain ⟨-, rfl⟩ := hcases
      simpa using h

end Scene.Follows

namespace Session

variable {σ τ : Session} {log : List LinkEvent}

/-- A run on a new scene, and what it did to links. -/
inductive Logged : Session → List LinkEvent → Prop where
  | start (defaultSize : Float) : Logged (start defaultSize) []
  | next {σ τ : Session} {log : List LinkEvent} {op : Operation} (h : Logged σ log)
      (hallowed : op.Allowed σ) (hperform : σ.perform op = some τ) :
      Logged τ (log ++ op.linkEvents σ.scene)

theorem Logged.reachable (h : Logged σ log) : Reachable σ := by
  induction h with
  | start defaultSize => exact ⟨defaultSize, .refl⟩
  | next _ hallowed hperform ih =>
      obtain ⟨defaultSize, hrun⟩ := ih
      exact ⟨defaultSize, hrun.tail ⟨_, hallowed, hperform⟩⟩

/-- Every run has a log. -/
theorem Reachable.logged (h : Reachable σ) : ∃ log, Logged σ log := by
  obtain ⟨defaultSize, hrun⟩ := h
  induction hrun with
  | refl => exact ⟨[], .start defaultSize⟩
  | tail _ hnext ih =>
      obtain ⟨log, hlog⟩ := ih
      obtain ⟨op, hallowed, hperform⟩ := hnext
      exact ⟨_, hlog.next hallowed hperform⟩

theorem Logged.follows (h : Logged σ log) : σ.scene.Follows log := by
  induction h with
  | start defaultSize =>
      have hnone : ∀ id, (Scene.empty defaultSize).kids id = [] ∧
          (Scene.empty defaultSize).holder? id = none := by
        intro id
        by_cases hid : id < 3
        · obtain ⟨v, hv⟩ := (Scene.wellFormed_empty defaultSize).shared id hid
          rw [Scene.kids_of_node hv, Scene.holder?_of_node hv]
          exact ⟨rfl, rfl⟩
        · exact Scene.links_of_not_lt hid
      exact ⟨fun p => (hnone p).1, fun c => (hnone c).2⟩
  | @next σ τ log op h hallowed hperform ih =>
      have hσ := h.reachable.sound
      obtain ⟨o, ho, rfl⟩ := perform_eq_some hperform
      by_cases hop : op.IsRelinking
      · cases op with
        | addChild p c =>
            obtain ⟨t, ht, rfl⟩ := map_toOption_eq_some.mp ho
            exact ih.addChild hσ.wellFormed (hσ.isContainer hallowed.1) (hσ.isPlaced hallowed.2) ht
        | addChildren p children =>
            obtain ⟨t, ht, rfl⟩ := map_toOption_eq_some.mp ho
            exact ih.addChildren hσ.wellFormed (hσ.isContainer hallowed.1)
              (fun c hc => hσ.isPlaced (hallowed.2 c hc)) ht
        | removeChild p c =>
            obtain ⟨r, hr, rfl⟩ := map_toOption_eq_some.mp ho
            exact ih.removeChild hr
        | _ => exact hop.elim
      · obtain ⟨hkids, hholder⟩ := (Operation.outcome?_changes hσ hallowed hop ho).links
        have hnone : op.linkEvents σ.scene = [] := by
          cases op with
          | addChild | addChildren | removeChild => exact (hop trivial).elim
          | _ => rfl
        rw [hnone, List.append_nil]
        exact ⟨fun p => hkids ▸ ih.kids p, fun c => hholder ▸ ih.holder c⟩

/-- Attachment and the order of children.  In every state of a run, a node is among the
children of a container exactly if the container is the node's parent.  No container lists a
child twice; it lists the nodes that the latest event on them attached to it, in the order of
these events.  Taking a child away says whether the container was its parent: if so the
generation moves on, and if not nothing changes. -/
theorem attachment (h : Logged σ log) :
    (∀ p c, (∃ children, σ.scene.children p = .ok children ∧ c ∈ children) ↔
      σ.scene.parent? c = .ok (some p)) ∧
    (∀ p children, σ.scene.children p = .ok children →
      children.Nodup ∧ children = LinkEvent.attached log p) ∧
    ∀ p c, σ.HasContainer p → σ.HasChild c → ∃ removed t,
      σ.scene.removeChild p c = .ok (removed, t) ∧
      (removed = true ↔ σ.scene.parent? c = .ok (some p)) ∧
      t.generation = σ.scene.generation + (if removed then 1 else 0) ∧
      (removed = false → t = σ.scene) := by
  have hfollows := h.follows
  have hlinked := hfollows.linked
  refine ⟨fun p c => ⟨?_, fun hparent => ?_⟩, fun p children hchildren => ?_, fun p c hp hc => ?_⟩
  · rintro ⟨children, hchildren, hc⟩
    rw [← Scene.kids_eq_of_children hchildren, hlinked.mem_iff] at hc
    have hlt : c < σ.scene.count := by
      by_contra hnot
      rw [(Scene.links_of_not_lt hnot).2] at hc
      cases hc
    rwa [Scene.parent?_eq_ok hlt]
  · have hlt : c < σ.scene.count := by
      obtain ⟨n, hn, -⟩ := except_bind_eq_ok.mp hparent
      exact Scene.lt_count_of_node hn
    have hc : c ∈ σ.scene.kids p := by
      rwa [hlinked.mem_iff, ← Scene.parent?_eq_ok hlt]
    refine ⟨_, Scene.children_eq_ok ?_, hc⟩
    by_contra hnot
    rw [(Scene.links_of_not_lt hnot).1] at hc
    cases hc
  · obtain rfl := Scene.kids_eq_of_children hchildren
    exact ⟨hlinked.nodup p, hfollows.kids p⟩
  · have hσ := h.reachable.sound
    have hlt := (hσ.isPlaced hc).lt_count
    obtain ⟨⟨removed, t⟩, ht⟩ := Scene.removeChild_succeeds (hσ.isContainer hp).lt_count hlt
    refine ⟨removed, t, ht, ?_⟩
    rw [Scene.parent?_eq_ok hlt]
    have hcases := hlinked.removeChild ht
    cases removed with
    | true => exact ⟨⟨fun _ => hcases.1, fun _ => rfl⟩, hcases.2.2, nofun⟩
    | false =>
        obtain ⟨hnot, rfl⟩ := hcases
        exact ⟨⟨nofun, fun h => absurd h hnot⟩, (UInt64.add_zero _).symm, fun _ => rfl⟩

/-- A child is attached again to its parent, the parent to itself, and another child is taken
from a part that is not its parent. -/
def relinked : List Operation :=
  [.part, .part, .pin, .addChild 3 4, .addChild 3 5, .addChild 3 4, .addChild 3 3,
    .removeChild 4 5]

theorem attachment_relinked : ∃ σ log, (start 100.0).runAll relinked = some σ ∧ Logged σ log ∧
    σ.scene.children 3 = .ok [5, 4, 3] ∧ LinkEvent.attached log 3 = [5, 4, 3] ∧
    σ.scene.parent? 3 = .ok (some 3) := by
  have hrun : ∃ σ ∈ (start 100.0).runAll relinked, σ.scene.children 3 = .ok [5, 4, 3] := by
    decide +kernel
  obtain ⟨σ, hσ, hchildren⟩ := hrun
  obtain ⟨log, hlog⟩ := Reachable.logged ⟨100.0, runs_of_runAll hσ⟩
  obtain ⟨hparent, hattached, -⟩ := attachment hlog
  exact ⟨σ, log, hσ, hlog, hchildren, (hattached 3 _ hchildren).2.symm,
    (hparent 3 3).mp ⟨_, hchildren, by decide⟩⟩

end Session

end SceneGraph
