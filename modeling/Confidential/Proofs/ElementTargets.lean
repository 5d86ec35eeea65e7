import Confidential.Proofs.Linking

/-!
What accesses by index refer to.
-/

namespace Confidential

open List Node Pass

def Node.Under (n : Node) (k : Nat) : Prop :=
  ∀ m ∈ n.subtrees, m.id < k

/-- The numbers from `next` on have not been given. -/
structure Program.Fresh (p : Program) : Prop where
  pos : 0 < p.next
  under : ∀ (k : Nat) (n : Node), p.nodes[k]? = some n → n.Under p.next

namespace Node

variable {n : Node} {k : Nat}

variable {Q : Nat → Prop}

theorem only_omitted (zero : Q 0) : Only Q .omitted :=
  only_iff.2 ⟨zero,by simp [parts]⟩

theorem only_publicType (zero : Q 0) (h : n.Only Q) : (Program.publicType n).Only Q := by
  have owner : (Node.owner {} .all).Only Q := only_iff.2 ⟨zero,by simp [parts]⟩
  refine only_iff.2 ⟨zero,?_⟩
  simp [Program.publicType,parts,h,owner]

theorem under_iff : n.Under k ↔ n.id < k ∧ ∀ c ∈ n.parts, c.Under k :=
  only_iff (Q := (· < k))

theorem Under.mono {j : Nat} (h : n.Under j) (le : j ≤ k) : n.Under k :=
  fun m hm => (h m hm).trans_le le

theorem Under.part {c : Node} (h : n.Under k) (hc : c ∈ n.parts) : c.Under k :=
  Only.part (Q := (· < k)) h hc

theorem Unnumbered.under (h : n.Unnumbered) (pos : 0 < k) : n.Under k :=
  fun m hm => h m hm ▸ pos

theorem under_omitted (pos : 0 < k) : Under .omitted k :=
  only_omitted (Q := (· < k)) pos

theorem under_publicType (pos : 0 < k) (h : n.Under k) : (Program.publicType n).Under k :=
  only_publicType (Q := (· < k)) pos h

theorem eq_numbered_of_id {m : Node} (under : n.Under k) (hm : m ∈ (n.numbered k).1.subtrees) (same : m.id = k) : m = (n.numbered k).1 := by
  have old {c : Node} (hc : c ∈ n.parts) : c.Only (· ≠ k) := fun m hm => Nat.ne_of_lt (under.part hc m hm)
  have below : ∀ c ∈ (n.numbered k).1.parts, c.Only (· ≠ k) :=
    forall_parts_numbered (fun _ => old) fun c hc j hj _ => only_numbered (old hc) fun _ hi _ => by omega
  obtain rfl | ⟨c,hc,hm⟩ := mem_subtrees.1 hm
  · rfl
  · exact absurd same (below c hc m hm)

theorem Under.numbered (h : n.Under k) : (n.numbered k).1.Under (n.numbered k).2 :=
  only_numbered (Q := (· < (n.numbered k).2)) (h.mono (le_numbered n k)) fun _ _ lt => lt

end Node

theorem Program.only_typeOf {Q : Nat → Prop} {p : Program} {n t : Node} (zero : Q 0) (types : p.types = {})
    (only : n.Only Q) (known : p.typeOf n = .ok t) : t.Only Q := by
  have elementary (e : Elementary) : (Node.elementary {} e).Only Q := only_iff.2 ⟨zero,by simp [parts]⟩
  unfold Program.typeOf at known
  rw [types] at known
  simp only [Std.TreeMap.getElem?_emptyc] at known
  split at known
  · cases known
    exact only_publicType zero (elementary _)
  · cases known
    exact only_publicType zero (elementary _)
  · cases known
    exact only_publicType zero (elementary _)
  · cases known
    exact only.part (by simp [parts])
  · cases known
    exact only.part (by simp [parts])
  · cases known
    exact only.part (by simp [parts])
  · cases known
    exact only.part (by simp [parts])
  · cases known
    refine only_publicType zero (only_iff.2 ⟨zero,fun c hc => only.part ?_⟩)
    simp only [parts] at hc ⊢
    grind
  · cases known
    exact only_omitted zero
  · cases known
    exact only_omitted zero
  · split at known
    · cases known
      exact only_omitted zero
    · cases known

namespace Program.Fresh

variable {p p' : Program}

theorem of_eq (h : p.Fresh) (nodes : p'.nodes = p.nodes) (next : p'.next = p.next) : p'.Fresh where
  pos := next ▸ h.pos
  under k n hn := next ▸ h.under k n (nodes ▸ hn)

theorem node (h : p.Fresh) (k : Nat) : (p.node k).Under p.next := by
  rw [Program.node_eq_getD]
  cases known : p.nodes[k]? with
  | none => exact under_omitted h.pos
  | some n => exact h.under k n known

variable {n t : Node}

theorem target (h : p.Fresh) (target : p.target n = .ok t) : t.Under p.next := by
  unfold Program.target at target
  split at target
  · cases target
    exact h.node _
  · split at target
    · cases target
    · cases target
      exact under_omitted h.pos
    · split at target
      · cases target
        exact under_omitted h.pos
      · cases target

theorem typeOf (h : p.Fresh) (types : p.types = {}) (under : n.Under p.next) (known : p.typeOf n = .ok t) : t.Under p.next :=
  Program.only_typeOf (Q := (· < p.next)) h.pos types under known

theorem register (h : p.Fresh) (under : n.Under p.next) (run : Runs (register n) p t p') : p'.Fresh := by
  obtain ⟨rfl,rfl⟩ := runs_register.1 run
  have le := le_numbered n p.next
  refine ⟨h.pos.trans_le le,fun k m hm => ?_⟩
  obtain old | ⟨mem,-⟩ := mem_withNodes hm
  · exact (h.under k m old).mono le
  · exact fun m' hm' => under.numbered m' (mem_trans hm' mem)

theorem root_registered (under : n.Under p.next) (solid : n.isLeaflet = false) (new : n.id = 0)
    (run : Runs (Pass.register n) p t p') : t.id < p'.next ∧ p'.node t.id = (n.numbered p.next).1 := by
  have id := id_numbered (k := p.next) solid new
  obtain ⟨rfl,rfl⟩ := runs_register.1 run
  have self := mem_subtrees.2 (.inl (rfl : (n.numbered p.next).1 = _))
  constructor
  · exact under.numbered _ self
  · have known : (withNodes p.nodes p.next (n.numbered p.next).1.subtrees)[(n.numbered p.next).1.id]? =
        some (n.numbered p.next).1 :=
      getElem?_withNodes self (Nat.le_of_eq id.symm) fun m hm same => eq_numbered_of_id under hm (same.trans id)
    rw [Program.node_eq_getD]
    exact known ▸ rfl

end Program.Fresh

/-- The place refers to a declaration that was made for the elements of an array or a mapping. -/
def Program.HasElement (p : Program) (m : Node) : Prop :=
  ∃ k, p.links.targets[m.id]? = some k ∧ k < p.next ∧ (p.node k).isVariable = true

section Freshness

variable {p p' : Program}

variable {n : Node}

variable {name : String} {type : Node} {ns : List Node}

theorem fresh_register (new : n.Unnumbered) : Keeps (Preserves Program.Fresh) (register n) :=
  fun _ _ _ run fresh => fresh.register (new.under fresh.pos) run

theorem fresh_modify {f : Program → Program} (h : ∀ p, (f p).nodes = p.nodes ∧ (f p).next = p.next) :
    Keeps (Preserves Program.Fresh) (modify f) :=
  .modify fun p fresh => fresh.of_eq (h p).1 (h p).2

theorem fresh_setTarget {k : Nat} : Keeps (Preserves Program.Fresh) (setTarget n k) :=
  fresh_modify fun _ => ⟨rfl,rfl⟩

theorem fresh_fillNames (n : Node) : Keeps (Preserves Program.Fresh) (fillNames n) := by
  refine keeps_fillNames (fresh_modify fun _ => ⟨rfl,rfl⟩) (fresh_register ?_) n
  intro m hm
  rw [subtrees_eq,mem_cons] at hm
  obtain rfl | hm := hm
  · rfl
  · simp [parts] at hm

theorem fresh_load (text : String) : Keeps (Preserves Program.Fresh) (load text) := by
  refine .ofOutcome_bind fun n unit => .bind (fresh_register ?_) fun _ => fresh_modify fun _ => ⟨rfl,rfl⟩
  exact (Source.yields_unit text n unit).1.unnumbered

theorem fresh_base (settings : Settings) : Program.Fresh { Globals.base with settings } := by
  have evaluated : 0 < Globals.base.next ∧
      Globals.base.nodes.toList.all (fun e => e.2.subtrees.all (·.id < Globals.base.next)) = true := by
    decide +kernel
  refine ⟨evaluated.1,fun k n known m hm => ?_⟩
  have listed := all_eq_true.1 evaluated.2 (k,n) (Std.TreeMap.mem_toList_iff_getElem?_eq_some.2 known)
  simpa using all_eq_true.1 listed m hm

theorem only_arrayFunction {Q : Nat → Prop} {f : Node} (zero : Q 0) (only : type.Only Q)
    (made : arrayFunction name type = .ok f) : f.Only Q := by
  have new {n : Node} (id : n.id = 0) (below : ∀ c ∈ n.parts, c.Only Q) : n.Only Q :=
    only_iff.2 ⟨id ▸ zero,below⟩
  have label (name : String) : (Globals.identifier name).Only Q := new rfl (by simp [Globals.identifier,parts])
  have parameter {type : Node} (h : type.Only Q) : (Globals.parameter type "").Only Q :=
    new rfl (by simp [Globals.parameter,parts,label,h])
  have block : (Globals.block []).Only Q := new rfl (by simp [Globals.block,parts])
  have function {parameters results : List Node} (h : ∀ c ∈ parameters ++ results, c.Only Q) :
      (Globals.function name parameters [] results []).Only Q := by
    refine new rfl fun c hc => ?_
    simp only [Globals.function,parts,Option.getD_some,map_nil,append_nil,mem_append,mem_cons, not_mem_nil,or_false] at hc h
    obtain ((rfl | hc) | hc) | rfl := hc
    · exact label name
    · exact h c (.inl hc)
    · exact h c (.inr hc)
    · exact block
  have value {v : Node} (hv : v ∈ type.parts) :
      ∀ c ∈ [Globals.parameter (Program.publicType v) ""], c.Only Q := by
    intro c hc
    rw [mem_singleton.1 hc]
    exact parameter (only_publicType zero (only.part hv))
  have either {v : Node} (hv : v ∈ type.parts) (made : (if name == "push" then
      .ok (Globals.function name [Globals.parameter (Program.publicType v) ""] [] [] [])
      else if name == "pop" then .ok (Globals.function name [] [] [Globals.parameter (Program.publicType v) ""] [])
      else .error (.compilation s!"unsupported array functin: {name}") : Outcome Node) = .ok f) : f.Only Q := by
    split at made
    · cases made
      exact function (by simpa using value hv)
    · split at made
      · cases made
        exact function (value hv)
      · cases made
  unfold arrayFunction at made
  split at made
  · exact either (by simp [parts]) made
  · exact either (by simp [parts]) made
  · cases made

theorem fresh_linkMember (found : Option Nat) : Keeps (Preserves Program.Fresh) (match found with
    | some k => do setTarget n (← memberOf ((← get).node k) name)
    | none => pure ()) := by
  split
  · exact .bind .get fun _ => .bind keeps_memberOf fun _ => fresh_setTarget
  · exact .pure

theorem fresh_linkMemberOfType (fresh : p.Fresh) (under : type.Under p.next)
    (run : Runs (linkMemberOfType n type name) p () p') : p'.Fresh := by
  revert run
  unfold linkMemberOfType
  split
  · split
    · have keeps : Keeps (Preserves Program.Fresh) (do setTarget n (← get).arrayLength) :=
        .bind .get fun _ => fresh_setTarget
      exact fun run => keeps p () p' run fresh
    · split
      · intro run
        obtain ⟨f,made,run⟩ := runs_ofOutcome_bind.1 run
        obtain ⟨t,q,known,run⟩ := runs_bind.1 run
        exact fresh_setTarget q () p' run (fresh.register (only_arrayFunction (Q := (· < p.next)) fresh.pos under made) known)
      · exact fun run => absurd run runs_throw
  · suffices keeps : Keeps (Preserves Program.Fresh) _ from fun run => keeps p () p' run fresh
    refine .bind .ask fun known => ?_
    dsimp only
    split
    · exact .bind .pure fresh_linkMember
    · refine .ofOutcome_bind fun t read => ?_
      split
      next i kind path =>
        obtain ⟨_,-,read⟩ := bind_ok.1 read
        exact .bind (fresh_register (Source.yields_piece _ _ read).unnumbered) fun t => .bind
          (fresh_modify fun _ => ⟨rfl,rfl⟩) fun _ => .bind keeps_typeTarget? fresh_linkMember
      next => exact .bind .throw fresh_linkMember
  · exact fun run => absurd run runs_throw

theorem under_typeNameOf {t : Node} (fresh : p.Fresh) (types : p.types = {}) (under : n.Under p.next)
    (run : Runs (typeNameOf n) p t p') : t.Under p.next ∧ p = p' := by
  obtain ⟨type,known,run⟩ := runs_ask_bind.1 run
  have inside : type.Under p.next := fresh.typeOf types under known
  split at run
  · obtain ⟨rfl,rfl⟩ := runs_pure.1 run
    exact ⟨inside.part (by simp [parts]),rfl⟩
  · exact absurd run runs_throw

theorem fresh_declareElement {element : Node} (fresh : p.Fresh) (under : element.Under p.next)
    (run : Runs (do
      let target ← register (.declaration {} .variable [] element (.identifier {} "") none)
      setTarget n target.id) p () p') : p'.Fresh ∧ p'.HasElement n := by
  obtain ⟨t,q,known,set⟩ := runs_bind.1 run
  have whole : (Node.declaration {} .variable [] element (.identifier {} "") none).Under p.next := by
    refine under_iff.2 ⟨fresh.pos,?_⟩
    have label : (Node.identifier {} "").Under p.next := under_iff.2 ⟨fresh.pos,by simp [parts]⟩
    simp [parts,under,label]
  obtain ⟨lt,node⟩ := Program.Fresh.root_registered whole rfl rfl known
  refine ⟨fresh_setTarget q () p' set (fresh.register whole known),t.id,?_⟩
  rw [← runs_modify.1 set]
  refine ⟨Std.TreeMap.getElem?_insert_self,lt,?_⟩
  change (q.node t.id).isVariable
  rw [node,numbered_eq]
  rfl

theorem fresh_linkOne (fresh : p.Fresh) (types : p.types = {}) (under : n.Under p.next)
    (run : Runs (linkOne n) p () p') : p'.Fresh ∧ ∀ i base key, n = .index i base key → p'.HasElement n := by
  revert run
  unfold linkOne
  split
  · suffices keeps : Keeps (Preserves Program.Fresh) _ from fun run => ⟨keeps p () p' run fresh,by simp⟩
    split
    · exact .pure
    · exact .bind keeps_findDeclaration fun _ => fresh_setTarget
  · suffices keeps : Keeps (Preserves Program.Fresh) _ from fun run => ⟨keeps p () p' run fresh,by simp⟩
    refine .bind keeps_typeTarget? fun found => ?_
    split
    · exact fresh_setTarget
    · exact .pure
  · intro run
    refine ⟨?_,by simp⟩
    obtain ⟨name,-,run⟩ := runs_ofOutcome_bind.1 run
    obtain ⟨target,known,run⟩ := runs_ask_bind.1 run
    split at run
    · obtain ⟨k,q,found,run⟩ := runs_bind.1 run
      exact fresh_setTarget q () p' run (keeps_memberOf (R := Preserves Program.Fresh) p k q found fresh)
    · obtain ⟨type,q,named,run⟩ := runs_bind.1 run
      obtain ⟨inside,rfl⟩ := under_typeNameOf fresh types (fresh.target known) named
      exact fresh_linkMemberOfType fresh inside run
  next i base key =>
    intro run
    obtain ⟨own,known,run⟩ := runs_ask_bind.1 run
    have inside : own.Under p.next := fresh.typeOf types (under.part (by simp [parts])) known
    have declared {element : Node} (under : element.Under p.next) (run : Runs (do
        let target ← register (.declaration {} .variable [] element (.identifier {} "") none)
        setTarget (.index i base key) target.id) p () p') : p'.Fresh ∧
        ∀ i' base' key', Node.index i base key = .index i' base' key' → p'.HasElement (.index i base key) :=
      (fresh_declareElement fresh under run).imp_right fun h _ _ _ _ => h
    dsimp only at run
    split at run
    on_goal 1 =>
      have outer := inside.part (mem_cons_self : _ ∈ parts (.annotated ..))
      rw [pure_bind] at run
    on_goal 2 =>
      obtain ⟨target,known,run⟩ := runs_ask_bind.1 run
      obtain ⟨type,_,named,run⟩ := runs_bind.1 run
      obtain ⟨outer,rfl⟩ := under_typeNameOf fresh types (fresh.target known) named
    all_goals
      split at run
      · obtain ⟨-,run⟩ := runs_guard.1 run
        rw [pure_bind] at run
        refine declared ?_ run
        split
        · exact under_publicType fresh.pos (outer.part (by simp [parts]))
        · have value := outer.part (mem_cons_self : _ ∈ parts (.arrayType ..))
          exact under_iff.2 ⟨fresh.pos,by simp [parts,inside,value]⟩
      · rw [pure_bind] at run
        exact declared (outer.part (by simp [parts])) run
      · exact absurd run runs_throw_bind
  next other =>
    intro run
    obtain ⟨-,rfl⟩ := runs_pure.1 run
    exact ⟨fresh,fun i base key eq => absurd eq (other i base key)⟩

theorem Program.HasElement.retain {K : Nat → Prop} {m : Node} (h : p.HasElement m) (kept : Retains K p p')
    (outside : ¬ K m.id) : p'.HasElement m := by
  obtain ⟨k,target,known,declared⟩ := h
  refine ⟨k,(kept.targets m.id outside).trans target,known.trans_le kept.le,?_⟩
  rw [Program.node_eq_getD,kept.nodes k known]
  rwa [Program.node_eq_getD] at declared

/-- No number was given twice, and the accesses by index in the trees refer to elements. -/
structure ElementsLinked (ns : List Node) (p : Program) : Prop where
  fresh : p.Fresh
  elements : ∀ n ∈ ns, ∀ i base key, .index i base key ∈ n.preorder → p.HasElement (.index i base key)

theorem ElementsLinked.cons (h : ElementsLinked [n] p) (hs : ElementsLinked ns p')
    (kept : Retains (· ∈ ns.flatMap numbers) p p') (nodup : ((n :: ns).flatMap numbers).Nodup) :
    ElementsLinked (n :: ns) p' := by
  refine ⟨hs.fresh,forall_mem_cons.2 ⟨fun i base key mem => ?_,hs.elements⟩⟩
  refine (h.elements n (mem_singleton_self n) i base key mem).retain kept fun other => ?_
  have own := number_mem_preorder mem rfl
  exact (nodup_append.1 nodup).2.2 _ own _ other rfl

theorem elementsLinked_forM (each : ∀ n ∈ ns, ∀ {p p' : Program}, p.Fresh → p.types = {} → n.Under p.next → Runs (linkNames n) p () p' →
      ElementsLinked [n] p')
    (fresh : p.Fresh) (types : p.types = {}) (under : ∀ n ∈ ns, n.Under p.next) (nodup : (ns.flatMap numbers).Nodup)
    (run : Runs (ns.forM linkNames) p () p') : ElementsLinked ns p' := by
  induction ns generalizing p with
  | nil =>
    rw [← runs_forM_nil.1 run]
    exact ⟨fresh,by simp⟩
  | cons n ns ih =>
    rw [forall_mem_cons] at each under
    obtain ⟨q,first,rest⟩ := runs_forM_cons.1 run
    have here : Retains (· ∈ n.numbers) p q := Retains.linkNames (fun _ hk => hk) p () q first
    have there : Retains (· ∈ ns.flatMap numbers) q p' :=
      Keeps.forM (fun m hm => Retains.linkNames fun k hk => mem_flatMap.2 ⟨m,hm,hk⟩) q () p' rest
    have head := each.1 fresh types under.1 first
    refine head.cons (ih each.2 head.fresh (here.types.trans types) (fun m hm => ?_) ?_ rest) there nodup
    · exact (under.2 m hm).mono here.le
    · exact (nodup_append.1 nodup).2.1

theorem elementsLinked_linkNames (fresh : p.Fresh) (types : p.types = {}) (under : n.Under p.next)
    (nodup : n.numbers.Nodup) (run : Runs (linkNames n) p () p') : ElementsLinked [n] p' := by
  induction n generalizing p p' with
  | step n ih =>
    rw [Retains.linkNames_eq] at run
    obtain ⟨-,run⟩ := runs_guard.1 run
    obtain ⟨_,q,first,last⟩ := runs_bind.1 run
    have sublist : (n.children.flatMap numbers).Sublist (n.parts.flatMap numbers) :=
      flatMap_sublist n.children_sublist fun _ _ => .refl _
    rw [numbers_eq] at nodup
    obtain ⟨-,inner,apart⟩ := nodup_append.1 nodup
    have kept : Retains (· ∈ n.children.flatMap numbers) p q :=
      Keeps.forM (fun c hc => Retains.linkNames fun k hk => mem_flatMap.2 ⟨c,hc,hk⟩) p () q first
    have children : ElementsLinked n.children q := by
      refine elementsLinked_forM (fun c hc p p' fresh types under run => ?_) fresh types (fun c hc => ?_)
        (sublist.nodup inner) first
      · have part := part_of_child hc
        exact ih c part fresh types under ((nodup_flatMap.1 inner).1 c part) run
      · exact under.part (part_of_child hc)
    obtain ⟨fresh',own⟩ := fresh_linkOne children.fresh (kept.types.trans types) (under.mono kept.le) last
    have step : Retains (n.id = ·) q p' := Retains.linkOne (fun _ => rfl) q () p' last
    refine ⟨fresh',forall_mem_singleton.2 fun i base key mem => ?_⟩
    rw [preorder_eq,mem_cons,mem_flatMap] at mem
    obtain rfl | ⟨c,hc,mem⟩ := mem
    · exact own i base key rfl
    · refine (children.elements c hc i base key mem).retain step fun same => ?_
      have number : (Node.index i base key).id ∈ n.parts.flatMap numbers :=
        sublist.subset (mem_flatMap.2 ⟨c,hc,number_mem_preorder mem rfl⟩)
      refine apart n.id ?_ _ number same
      rw [isLeaflet_of_child hc]
      exact mem_singleton.2 rfl

end Freshness

end Confidential
