import Confidential.Proofs.Builtins
import Confidential.Proofs.RawTrees

/-!
Sources as programs.
-/

namespace Confidential

open Node Pass

/-- Makes a source the program, and finds the places of its nodes and the tables of names. -/
def Pass.loadScopes (text : String) : Pass Unit := do
  load text
  let n := (← get).tree
  linkParents n
  fillNames n

structure Scoped (p : Program) (first : Nat) (root : Node) : Prop where
  holds : Holds p first root
  proper : root.Proper
  root_eq : p.root = root.id
  source : root.role = .source
  tabled : ∀ m ∈ root.preorder, m.role ≠ .source → Tabled p m
  outermost : ∃ t : Names, p.links.names[root.id]? = some t ∧ ∀ x, t.lookup x =
    (p.globalNames.reverse.lookup x).or (((root.units.filter (·.isContract)).reverse.find? (·.isCalled x)).map nameId)
  named : ∀ c ∈ root.units.filter (·.isContract), ∃ e, Lists c e
  builtins : ∀ e ∈ p.globalNames, ∃ d, Builtin p e d ∧ d.id < first

variable {p p' : Program}

variable {first : Nat} {root : Node} {q start : Program} {text : String} {u : Unit}

variable {n : Node}

theorem Holds.extend (h : Holds p first root) (ext : Extends p p') (statements : p'.links.statements = p.links.statements)
    (functions : p'.links.functions = p.links.functions) : Holds p' first root where
  pos := h.pos
  range m hm solid := (h.range m hm solid).imp_right fun lt => lt.trans_le ext.le
  nodup := h.nodup
  depth := h.depth.trans ext.le
  node m hm solid := (ext.nodes m.id (h.range m hm solid).2).trans (h.node m hm solid)
  parent around m path solid := by
    have range := h.range m path.mem_subtrees solid
    rw [ext.parents m.id (h.pos.trans_le range.1) range.2]
    exact h.parent around m path solid
  statement := statements ▸ h.statement
  function := functions ▸ h.function

theorem Holds.fill {keys : Nat → Prop} (h : Holds p first root) (f : Fills keys p p') : Holds p' first root :=
  h.extend ⟨f.next,f.nodes,fun _ _ _ => by rw [f.links]⟩ (by rw [f.links]) (by rw [f.links])

theorem Fills.extend {keys : Nat → Prop} (h : Fills keys p p') : Extends p p' where
  le := h.next
  nodes := h.nodes
  parents k _ _ := by rw [h.links]

theorem runs_fillDefinitions {ks : List Nat}
    (run : Runs (ks.forM fun k => do fillBelow ((← get).node k)) p u p')
    (known : ∀ k ∈ ks, k < p.next ∧ ∀ j ∈ (p.node k).numbers, j < first) (pos : 0 < first) :
    Fills (· < first) p p' := by
  induction ks generalizing p with
  | nil =>
    rw [runs_forM_nil.1 run]
    exact .refl
  | cons k _ ih =>
    rw [List.forall_mem_cons] at known
    obtain ⟨q,step,rest⟩ := runs_forM_cons.1 run
    replace step := runs_get_bind.1 step
    have fills : Fills (· < first) p q := by
      refine (fills_fillBelow step).mono fun j hj => ?_
      obtain rfl | hj := hj
      · exact pos
      · exact known.1.2 j hj
    refine fills.trans (ih rest fun k hk => ?_)
    rw [fills.extend.node (known.2 k hk).1]
    exact ⟨(known.2 k hk).1.trans_le fills.next,(known.2 k hk).2⟩

theorem runs_fillGlobals {t : Names} (run : Runs fillGlobals p t p')
    (known : ∀ k ∈ p.globalDefinitions, k < p.next ∧ ∀ j ∈ (p.node k).numbers, j < first) (pos : 0 < first) :
    Fills (· < first) p p' ∧ t = Names.ofList p.globalNames := by
  unfold fillGlobals at run
  replace run := runs_get_bind.1 run
  obtain ⟨_,q,filled,run⟩ := runs_bind.1 run
  replace run := runs_get_bind.1 run
  obtain ⟨rfl,rfl⟩ := runs_pure.1 run
  have fills := runs_fillDefinitions filled known pos
  exact ⟨fills,by rw [fills.globalNames]⟩

theorem scoped_of_fillNames (run : Runs (fillNames root) p u p')
    (holds : Holds p first root) (proper : root.Proper) (root_eq : p.root = root.id) (source : root.role = .source)
    (unnamed : ∀ k : Nat, p.links.names[k]? = none)
    (known : ∀ k ∈ p.globalDefinitions, k < p.next ∧ ∀ j ∈ (p.node k).numbers, j < first)
    (builtins : ∀ e ∈ p.globalNames, ∃ d, Builtin p e d ∧ d.id < first) : Scoped p' first root := by
  have range {k : Nat} (hk : k ∈ root.numbers) : first ≤ k ∧ k < p.next := by
    obtain ⟨m,hm,rfl⟩ := List.mem_map.1 hk
    obtain ⟨hm,solid⟩ := List.mem_filter.1 hm
    exact holds.range m hm (by simpa using solid)
  unfold fillNames at run
  obtain ⟨_,q,below,run⟩ := runs_bind.1 run
  rw [if_pos (isSource_iff.2 source)] at run
  obtain ⟨own,declared,run⟩ := runs_ofOutcome_bind.1 run
  obtain ⟨t,r,globals,run⟩ := runs_bind.1 run
  have trees := fillsTrees_fillBelow below proper holds.nodup fun k hk =>
    ⟨holds.pos.trans_le (range hk).1,unnamed k⟩
  have filled := trees.fills
  have known : ∀ k ∈ q.globalDefinitions, k < q.next ∧ ∀ j ∈ (q.node k).numbers, j < first := by
    intro k hk
    rw [filled.globalDefinitions] at hk
    rw [filled.extend.node (known k hk).1]
    exact ⟨(known k hk).1.trans_le filled.next,(known k hk).2⟩
  obtain ⟨after,rfl⟩ := runs_fillGlobals globals known holds.pos
  rw [← runs_setNames.1 run]
  have last : Fills (· = root.id) r (r.withNames root.id (own.update (Names.ofList q.globalNames))) := .withNames _ rfl
  refine ⟨((holds.fill filled).fill after).fill last,proper,?_,source,fun m hm hr => ?_,
    ⟨own.update (Names.ofList q.globalNames),?_,fun x => ?_⟩,?_,?_⟩
  · rw [last.root,after.root,filled.root,root_eq]
  · cases solid : m.isLeaflet with
    | true => exact .inl (own_of_isLeaflet solid)
    | false =>
      have known := root.preorder_sublist.subset hm
      refine (trees.tabled root (List.mem_singleton.2 rfl) m hm).congr ?_
      rw [last.names m.id,after.names m.id]
      · have := (holds.range m known solid).1
        omega
      · intro same
        have self : root ∈ root.subtrees := self_mem
        have eq := eq_of_id holds.nodup known self solid (isLeaflet_of_id ?_) same
        · exact hr (eq ▸ source)
        · exact same ▸ holds.pos.trans_le (holds.range m known solid).1
  · exact (Program.getElem?_withNames ..).trans (if_pos rfl)
  · rw [Names.lookup_update_ofList,last.globalNames,after.globalNames,lookup_declaredNames declared]
  · exact lists_of_declaredNames declared
  · intro e he
    rw [last.globalNames,after.globalNames,filled.globalNames] at he
    obtain ⟨d,hd,lt⟩ := builtins e he
    exact ⟨d,((hd.extend filled.extend).extend after.extend).extend last.extend,lt⟩

/-- The source `root` is known in `p`, with the places of its nodes, and nothing else has been added to
`start`. -/
structure Placed (start p : Program) (root : Node) : Prop where
  holds : Holds p start.next root
  proper : root.Proper
  source : root.role = .source
  root_eq : p.root = root.id
  ext : Extends start p
  names : p.links.names = start.links.names
  definitions : p.globalDefinitions = start.globalDefinitions
  globalNames : p.globalNames = start.globalNames

/-- The program after a source was registered and its places were recorded. -/
def Program.withSource (p : Program) (text : String) (root : Node) (l : Links) : Program :=
  { p with root := root.id, lines := Text.lines text, links := l }

theorem placed_withSource {l : Links} (equipped : Equipped start)
    (unit : Source.unit text = .ok n) (known : Runs (register n) start root q)
    (recorded : Links.recordAll {} root q.links = .ok l) : Placed start (q.withSource text root l) root := by
  obtain ⟨raw,role⟩ := Source.yields_unit text n unit
  have registered := registered_of_runs raw.unnumbered known
  have same := renumbered_of_runs raw.unnumbered known
  rw [registered.links_eq] at recorded
  obtain ⟨ext,names⟩ := registered.recorded (q := q.withSource text root l) rfl rfl recorded
  exact {
    holds := holds_of_recordAll equipped.tidy registered rfl rfl recorded
    proper := forall_of_renumbered (P := fun _ b => b) same raw.proper
    source := (role_eq_of_renumbered same).trans (List.mem_singleton.1 role)
    root_eq := rfl
    ext := ext
    names := names
    definitions := by
      change q.globalDefinitions = _
      rw [registered.eq]
    globalNames := by
      change q.globalNames = _
      rw [registered.eq] }

theorem tree_registered (pos : 0 < start.next) (unit : Source.unit text = .ok n) (known : Runs (register n) start root q) :
    Program.tree { q with root := root.id, lines := Text.lines text } = root := by
  obtain ⟨raw,role⟩ := Source.yields_unit text n unit
  have same := renumbered_of_runs raw.unnumbered known
  have source : root.role = .source := (role_eq_of_renumbered same).trans (List.mem_singleton.1 role)
  have solid := isLeaflet_of (isSource_iff.2 source) fun _ => rfl
  change q.node root.id = root
  rw [Program.node_eq_getD,(registered_of_runs raw.unnumbered known).getElem?_nodes pos self_mem solid,Option.getD_some]

theorem runs_loadScopes (pos : 0 < start.next) : Runs (loadScopes text) start () p ↔
    ∃ n root q l, Source.unit text = .ok n ∧ Runs (register n) start root q ∧
      Links.recordAll {} root q.links = .ok l ∧ Runs (fillNames root) (q.withSource text root l) () p := by
  unfold loadScopes load linkParents
  simp only [runs_bind,runs_get,runs_ofOutcome,runs_modify,runs_ask]
  constructor
  · rintro ⟨_,_,⟨n,_,⟨unit,rfl⟩,root,q,known,rfl⟩,_,_,⟨rfl,rfl⟩,_,_,⟨l,_,⟨recorded,rfl⟩,rfl⟩,run⟩
    rw [tree_registered pos unit known] at recorded run
    exact ⟨n,root,q,l,unit,known,recorded,run⟩
  · rintro ⟨n,root,q,l,unit,known,recorded,run⟩
    refine ⟨(),_,⟨n,_,⟨unit,rfl⟩,root,q,known,rfl⟩,_,_,⟨rfl,rfl⟩,(),_,⟨l,_,⟨?_,rfl⟩,rfl⟩,?_⟩
    · rw [tree_registered pos unit known]
      exact recorded
    · rw [tree_registered pos unit known]
      exact run

theorem Placed.scoped (h : Placed start q root) (equipped : Equipped start)
    (run : Runs (fillNames root) q u p) : Scoped p start.next root := by
  refine scoped_of_fillNames run h.holds h.proper h.root_eq h.source ?_ (fun k hk => ?_) fun e he => ?_
  · intro k
    rw [h.names,equipped.unnamed]
  · rw [h.definitions] at hk
    obtain ⟨lt,numbers⟩ := equipped.definitions k hk
    rw [h.ext.node lt]
    exact ⟨lt.trans_le h.ext.le,fun j hj => (numbers j hj).2⟩
  · rw [h.globalNames] at he
    obtain ⟨d,hd⟩ := equipped.names e he
    exact ⟨d,hd.extend h.ext,hd.lt⟩

theorem scoped_of_runs (equipped : Equipped start)
    (run : Runs (loadScopes text) start () p) : ∃ root, Scoped p start.next root := by
  obtain ⟨n,root,q,l,unit,known,recorded,run⟩ := (runs_loadScopes equipped.tidy.pos).1 run
  exact ⟨root,(placed_withSource equipped unit known recorded).scoped equipped run⟩

theorem Scoped.tree_eq (h : Scoped p first root) : p.tree = root := by
  have solid := isLeaflet_of (isSource_iff.2 h.source) fun _ => rfl
  rw [Program.tree,h.root_eq]
  exact h.holds.node_eq self_mem solid

end Confidential
