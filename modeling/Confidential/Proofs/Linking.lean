import Confidential.Proofs.LoadedSource

/-!
Linking finds out what the names refer to.
-/

namespace Confidential

open Node Pass

def Program.Numbered (p : Program) : Prop :=
  ∀ (k : Nat) (n : Node), p.nodes[k]? = some n → n.id = k

section Filling

variable {R : Program → Program → Prop} [Std.Refl R] [IsTrans Program R]

theorem keeps_collectNames (names : ∀ {n t}, Keeps R (setNames n t)) {n : Node} : Keeps R (collectNames n) :=
  .bind (.mapM fun _ _ => .guard .throw .ask) fun _ => .bind .ofOutcome fun _ => .bind (.forM fun _ _ => names)
    fun _ => .pure

theorem keeps_checkOverloading (seen : Names) (fs : List Node) : Keeps R (checkOverloading seen fs) := by
  induction fs generalizing seen with
  | nil => exact .pure
  | cons _ _ ih =>
    unfold Pass.checkOverloading
    exact .bind .ofOutcome fun _ => .guard .refuse (ih _)

variable (names : ∀ {n t}, Keeps R (setNames n t)) (placeholder : Keeps R (register (.identifier {} "_")))
include names placeholder

theorem keeps_fillOne (n : Node) : Keeps R (fillOne n) := by
  unfold Pass.fillOne
  split
  · exact .bind .ofOutcome fun _ => names
  · refine .bind ?_ fun _ => names
    exact .bind .ofOutcome fun _ => .bind (keeps_checkOverloading _ _) fun _ => .bind .ofOutcome fun _ => .ofOutcome
  · exact .bind .ofOutcome fun _ => names
  · exact .bind .ofOutcome fun _ => .bind placeholder fun _ => names
  · exact .bind .ofOutcome fun _ => names
  · exact .bind .ofOutcome fun _ => names
  · exact .bind .ofOutcome fun _ => names
  all_goals first | exact .bind (keeps_collectNames names) fun _ => names | exact names | exact .pure

theorem keeps_fillBelow (n : Node) : Keeps R (fillBelow n) := by
  induction n with
  | step n ih =>
    rw [fillBelow_eq]
    exact .guard .throw (.bind (.forM fun c hc => ih c (part_of_child hc)) fun _ =>
      keeps_fillOne names placeholder n)

theorem keeps_fillNames (n : Node) : Keeps R (fillNames n) := by
  refine .bind (keeps_fillBelow names placeholder n) fun _ => ?_
  split
  · refine .bind .ofOutcome fun _ => .bind (.bind .get fun p => .bind (.forM fun k _ => ?_) fun _ => ?_) fun _ => names
    · exact .bind .get fun p => keeps_fillBelow names placeholder _
    · exact .bind .get fun _ => .pure
  · exact .pure

end Filling

def Program.states (p : Program) : Table (Partition Label) × Table (Partition Label) :=
  (p.before,p.after)

/-- Nothing new is said about types and effects, and new nodes are known by their numbers. -/
structure Quiet (p p' : Program) : Prop where
  types : p'.types = p.types
  modified : p'.modified = p.modified
  read : p'.read = p.read
  states : p'.states = p.states
  numbered : p.Numbered → p'.Numbered

namespace Quiet

variable {n : Node}

instance : Std.Refl Quiet := ⟨fun _ => ⟨rfl,rfl,rfl,rfl,id⟩⟩

instance : IsTrans Program Quiet where
  trans _ _ _ h h' := ⟨h'.types.trans h.types,h'.modified.trans h.modified,h'.read.trans h.read,
    h'.states.trans h.states,h'.numbered ∘ h.numbered⟩

theorem of_eq {p p' : Program} (nodes : p'.nodes = p.nodes) (types : p'.types = p.types)
    (modified : p'.modified = p.modified) (read : p'.read = p.read) (states : p'.states = p.states) : Quiet p p' :=
  ⟨types,modified,read,states,fun h k n hn => h k n (nodes ▸ hn)⟩

theorem modify {f : Program → Program} (h : ∀ p, (f p).nodes = p.nodes ∧ (f p).types = p.types ∧
    (f p).modified = p.modified ∧ (f p).read = p.read ∧ (f p).states = p.states) : Keeps Quiet (modify f) :=
  .modify fun p => of_eq (h p).1 (h p).2.1 (h p).2.2.1 (h p).2.2.2.1 (h p).2.2.2.2

theorem register : Keeps Quiet (register n) := by
  intro p m p' run
  change (Except.ok _,_) = (Except.ok m,p') at run
  rw [Prod.mk.injEq] at run
  rw [← run.2]
  refine ⟨rfl,rfl,rfl,rfl,fun h k n hn => ?_⟩
  obtain old | ⟨-,same⟩ := mem_withNodes hn
  · exact h k n old
  · exact same

theorem linkParents : Keeps Quiet (linkParents n) :=
  .bind .ask fun _ => modify fun _ => ⟨rfl,rfl,rfl,rfl,rfl⟩

theorem fillNames (n : Node) : Keeps Quiet (fillNames n) :=
  keeps_fillNames (modify fun _ => ⟨rfl,rfl,rfl,rfl,rfl⟩) register n

theorem load (text : String) : Keeps Quiet (load text) :=
  .bind .ofOutcome fun _ => .bind register fun _ => modify fun _ => ⟨rfl,rfl,rfl,rfl,rfl⟩

end Quiet

section Looking

variable {R : Program → Program → Prop} [Std.Refl R] [IsTrans Program R]

variable {n : Node} {name : String}

theorem keeps_memberOf : Keeps R (memberOf n name) := by
  refine .bind .ask fun t => ?_
  split
  · exact .throw
  · refine .bind .get fun p => ?_
    split <;> exact .pure

theorem keeps_typeTarget? {path : List Node} : Keeps R (typeTarget? n path) := by
  unfold typeTarget?
  split
  · exact .throw
  · refine .bind .ofOutcome fun _ => .bind .get fun p => .bind .ofOutcome fun found => ?_
    split
    · exact .pure
    · refine .bind (.foldlM (fun k part _ => ?_) _) fun _ => .pure
      exact .bind .ofOutcome fun _ => .guard .throw (.bind .get fun _ => keeps_memberOf)

theorem keeps_findDeclaration : Keeps R (findDeclaration n name) := by
  refine .bind .get fun p => .bind .ofOutcome fun found => ?_
  split
  · exact .pure
  · exact .refuse

theorem keeps_typeNameOf : Keeps R (typeNameOf n) := by
  refine .bind .ask fun t => ?_
  split
  · exact .pure
  · exact .throw

end Looking

theorem Source.yields_piece (text : String) : Outcome.Yields Raw (Source.piece text) := by
  refine (yields_parse _).bind fun s flat => (s.yields_toNode flat).bind fun n hn => ?_
  split
  next i us hs single => exact .pure (hn.1.part (by simp [parts])).1
  next => exact .error

/-- What the analyses of calls and secrets have found. -/
def Program.findings (p : Program) : Table FunctionFacts × Table Bool × Table Bool :=
  (p.functionFacts,p.hidden,p.privateOperators)

/-- The nodes that are known, their places and their tables stay as they are, and so do the targets of all
nodes but those with the numbers `K`. -/
structure Retains (K : Nat → Prop) (p p' : Program) : Prop extends Extends p p', Quiet p p' where
  targets : ∀ k, ¬ K k → p'.links.targets[k]? = p.links.targets[k]?
  root : p'.root = p.root
  names : p'.links.names = p.links.names
  statements : p'.links.statements = p.links.statements
  functions : p'.links.functions = p.links.functions
  length : p'.arrayLength = p.arrayLength
  findings : p'.findings = p.findings

namespace Retains

variable {K : Nat → Prop}

variable {n : Node} {name : String}

instance : Std.Refl (Retains K) :=
  ⟨fun p => ⟨⟨le_rfl,fun _ _ => rfl,fun _ _ _ => rfl⟩,refl p,fun _ _ => rfl,rfl,rfl,rfl,rfl,rfl,rfl⟩⟩

instance : IsTrans Program (Retains K) where
  trans _ _ _ h h' := {
    toExtends := h.toExtends.trans h'.toExtends
    toQuiet := Trans.trans h.toQuiet h'.toQuiet
    targets := fun k hk => (h'.targets k hk).trans (h.targets k hk)
    root := h'.root.trans h.root
    names := h'.names.trans h.names
    statements := h'.statements.trans h.statements
    functions := h'.functions.trans h.functions
    length := h'.length.trans h.length
    findings := h'.findings.trans h.findings }

theorem setTarget {k : Nat} (hn : K n.id) : Keeps (Retains K) (setTarget n k) := by
  refine .modify fun p => ⟨⟨le_rfl,fun _ _ => rfl,fun _ _ _ => rfl⟩,.of_eq rfl rfl rfl rfl rfl,fun j hj => ?_,
    rfl,rfl,rfl,rfl,rfl,rfl⟩
  change (p.links.targets.insert n.id k)[j]? = _
  rw [Std.TreeMap.getElem?_insert,if_neg]
  rw [Std.compare_eq_iff_eq]
  rintro rfl
  exact hj hn

theorem register : Keeps (Retains K) (register n) := by
  intro p m p' run
  have quiet := Quiet.register p m p' run
  change (Except.ok _,_) = (Except.ok m,p') at run
  rw [Prod.mk.injEq] at run
  obtain ⟨-,rfl⟩ := run
  exact ⟨⟨le_numbered n p.next,fun k hk => getElem?_withNodes_of_lt hk,fun _ _ _ => rfl⟩,quiet,fun _ _ => rfl,rfl,
    rfl,rfl,rfl,rfl,rfl⟩

theorem registerAt {α : Type} {m : Node} {f : Node → Pass α} (new : n.Unnumbered) (solid : n.isLeaflet = false)
    (step : ∀ t, Keeps (Retains K) (f t)) : Keeps (Retains K) (do
      let t ← Pass.register n
      modify fun p => { p with links := { p.links with parents := p.links.parents.insert t.id m.id } }
      f t) := by
  intro p a p' run
  obtain ⟨t,q,known,run⟩ := runs_bind.1 run
  obtain ⟨_,r,placed,run⟩ := runs_bind.1 run
  have first : Retains K p q := register p t q known
  have registered := registered_of_runs new known
  have solid : t.isLeaflet = false := by
    rw [← (runs_register.1 known).1,isLeaflet_numbered,solid]
  have fresh := (registered.mem_numbers self_mem solid).1
  have second : Retains K p r := by
    rw [← runs_modify.1 placed]
    refine { first with parents := fun k pos hk => ?_, toQuiet := { first.toQuiet with } }
    change (q.links.parents.insert t.id m.id)[k]? = _
    rw [Std.TreeMap.getElem?_insert,if_neg,first.parents k pos hk]
    rw [Std.compare_eq_iff_eq]
    omega
  exact Trans.trans second (step t r a p' run)

theorem linkMember (hn : K n.id) (found : Option Nat) : Keeps (Retains K) (match found with
    | some k => do Pass.setTarget n (← Pass.memberOf ((← get).node k) name)
    | none => pure ()) := by
  split
  · exact .bind .get fun _ => .bind keeps_memberOf fun _ => setTarget hn
  · exact .pure

theorem linkMemberOfType {type : Node} (hn : K n.id) : Keeps (Retains K) (linkMemberOfType n type name) := by
  unfold Pass.linkMemberOfType
  split
  · split
    · exact .bind .get fun _ => setTarget hn
    · split
      · exact .bind .ofOutcome fun _ => .bind register fun _ => setTarget hn
      · exact .throw
  · refine .bind .ask fun known => ?_
    dsimp only
    split
    · exact .bind .pure (linkMember hn)
    · refine .ofOutcome_bind fun t read => ?_
      split
      next i kind path =>
        obtain ⟨_,-,read⟩ := bind_ok.1 read
        exact registerAt (Source.yields_piece _ _ read).unnumbered rfl fun t => .bind keeps_typeTarget? (linkMember hn)
      next => exact .bind .throw (linkMember hn)
  · exact .throw

theorem declareElement {element : Node} (hn : K n.id) : Keeps (Retains K) (do
    let target ← Pass.register (.declaration {} .variable [] element (.identifier {} "") none)
    Pass.setTarget n target.id) :=
  .bind register fun _ => setTarget hn

theorem linkOne (inside : n.isLeaflet = false → K n.id) : Keeps (Retains K) (linkOne n) := by
  unfold Pass.linkOne
  split
  · split
    · exact .pure
    · exact .bind keeps_findDeclaration fun _ => setTarget (inside rfl)
  · refine .bind keeps_typeTarget? fun found => ?_
    split
    · exact setTarget (inside rfl)
    · exact .pure
  · refine .bind .ofOutcome fun name => .bind .ask fun target => ?_
    split
    · exact .bind keeps_memberOf fun _ => setTarget (inside rfl)
    · exact .bind keeps_typeNameOf fun _ => linkMemberOfType (inside rfl)
  · refine .bind .ask fun own => ?_
    dsimp only
    split
    on_goal 1 => refine .bind .pure fun type => ?_
    on_goal 2 => refine .bind .ask fun _ => .bind keeps_typeNameOf fun type => ?_
    all_goals
      split
      · exact .guard .throw (.bind .pure fun _ => declareElement (inside rfl))
      · exact .bind .pure fun _ => declareElement (inside rfl)
      · exact .bind .throw fun _ => declareElement (inside rfl)
  · exact .pure

theorem linkNames_eq (n : Node) :
    Pass.linkNames n = (do
      if n.lacksParameters then throw .misused
      n.children.forM Pass.linkNames
      Pass.linkOne n) := by
  have attached : n.children.attach.forM (fun c => Pass.linkNames c.1) = n.children.forM Pass.linkNames := by
    conv => rhs; rw [← List.attach_map_subtype_val n.children]
    exact (List.forM_map ..).symm
  rw [Pass.linkNames]
  change (if n.lacksParameters then _ else
    n.children.attach.forM (fun c => Pass.linkNames c.1) >>= fun _ => Pass.linkOne n) = _
  rw [attached]

theorem linkNames (inside : ∀ k ∈ n.numbers, K k) : Keeps (Retains K) (linkNames n) := by
  induction n with
  | step n ih =>
    rw [linkNames_eq]
    refine .guard .throw (.bind (.forM fun c hc => ih c (part_of_child hc) fun k hk => ?_) fun _ =>
      linkOne fun solid => inside n.id (number_mem self_mem solid))
    exact inside k (numbers_subset_child hc hk)

end Retains

theorem Holds.retain {K : Nat → Prop} {p p' : Program} {first : Nat} {root : Node} (h : Holds p first root)
    (kept : Retains K p p') : Holds p' first root :=
  h.extend kept.toExtends kept.statements kept.functions

theorem keeps_install : Keeps Quiet Globals.install := by
  have linkName (n : Node) : Keeps Quiet (Globals.linkName n) := by
    unfold Globals.linkName
    split
    · exact Quiet.modify fun _ => ⟨rfl,rfl,rfl,rfl,rfl⟩
    · exact .pure
  refine .bind (.mapM fun e _ => .bind Quiet.register fun n => ?_) fun nodes => .bind (.forM fun n _ => ?_) fun _ =>
    .bind (.forM fun e _ => .bind Quiet.register fun n => .bind (linkName n) fun _ => ?_) fun _ =>
    .bind Quiet.register fun _ => Quiet.modify fun _ => ⟨rfl,rfl,rfl,rfl,rfl⟩
  · dsimp only
    split
    · exact .bind Quiet.linkParents fun _ => .bind (Quiet.modify fun _ => ⟨rfl,rfl,rfl,rfl,rfl⟩) fun _ => .pure
    · exact .bind (linkName n) fun _ => .bind (Quiet.modify fun _ => ⟨rfl,rfl,rfl,rfl,rfl⟩) fun _ => .pure
  · unfold Globals.markTransfers
    split
    · exact .forM fun _ _ => Quiet.modify fun _ => ⟨rfl,rfl,rfl,rfl,rfl⟩
    · exact .pure
  · dsimp only
    split
    · exact .bind (Quiet.modify fun _ => ⟨rfl,rfl,rfl,rfl,rfl⟩) fun _ => Quiet.modify fun _ => ⟨rfl,rfl,rfl,rfl,rfl⟩
    · exact Quiet.modify fun _ => ⟨rfl,rfl,rfl,rfl,rfl⟩

theorem quiet_base (settings : Settings) : Quiet {} { Globals.base with settings } := by
  have ends : (Globals.install.run {}).1.isOk := by decide +kernel
  have quiet := keeps_install {} () Globals.base (Prod.ext (by cases h : (Globals.install.run {}).1 <;> simp_all [Except.isOk,Except.toBool]) rfl)
  exact { quiet with }

end Confidential
