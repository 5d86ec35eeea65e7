import Confidential.Proofs.PolicyEntries
import Confidential.Proofs.Processing

/-!
The mappings of a contract in the policies of its functions.
-/

namespace Confidential

open List Node Pass

def Node.Assigns (f c : Node) : Prop :=
  ∃ i toCircuit left right op, f.Examines (.assign i toCircuit left right op) ∧ c ∈ left.assignees

namespace Program

def keyTexts (p : Program) : Node → Outcome (List String)
  | .index _ base key => do return (← p.keyTexts base) ++ [← p.solidity key]
  | _ => .ok []

/-- The expression `c` is `m[k₁]…[kₙ]` for a mapping `m`, which is the state variable `var`. -/
structure IndexesMapping (p : Program) (c var : Node) : Prop where
  index : c.isIndex = true
  name : c.indexedBase.isName = true
  target : p.target c.indexedBase = .ok var
  state : var.isStateVariable = true
  mapping : var.declaredType.isMapping = true

def listedKey (ks : List String) : String :=
  Text.eraseAnnotations (joinKeys (ks.map fun k => if k == "me" then "msg.sender" else k))

def Unaltered (ks : List String) : Prop :=
  (∀ k ∈ ks, k ≠ "" ∧ k ≠ "me") ∧ Text.eraseAnnotations (":".intercalate ks) = ":".intercalate ks

variable {ks : List String}

theorem indexPath_eq_ok {p : Program} {n root : Node} (h : p.indexPath n = .ok (root,ks)) :
    root = n.indexedBase ∧ ∃ ks', p.keyTexts n = .ok ks' ∧ ks = ks'.map fun k => if k == "me" then "msg.sender" else k := by
  fun_induction indexedBase n generalizing root ks with
  | case1 _ _ _ ih =>
    rw [indexPath] at h
    dsimp only at h
    split at h
    · cases h
    · obtain ⟨k,printed,h⟩ := bind_ok.1 h
      obtain ⟨⟨root',ks'⟩,inner,h⟩ := bind_ok.1 h
      cases h
      obtain ⟨rfl,ks,texts,rfl⟩ := ih inner
      exact ⟨rfl,ks ++ [k],by rw [keyTexts,texts,printed]; rfl,by simp⟩
  | case2 n other =>
    rw [indexPath.eq_2 p n other] at h
    cases h
    exact ⟨rfl,[],keyTexts.eq_2 p n other,rfl⟩

theorem joinKeys_eq_intercalate (h : ∀ k ∈ ks, k ≠ "") : joinKeys ks = ":".intercalate ks := by
  have empty {k : String} {ks : List String} (hk : k ≠ "") : (":".intercalate (k :: ks)).isEmpty = false := by
    cases ks with
    | nil => simpa using hk
    | cons => simp [String.intercalate_cons_cons,hk]
  unfold joinKeys
  induction ks with
  | nil => simp
  | cons _ ks ih =>
    rw [forall_mem_cons] at h
    rw [foldr_cons,ih h.2]
    cases ks with
    | nil => simp
    | cons k' =>
      rw [if_neg (by simp [empty (h.2 k' mem_cons_self)]),String.intercalate_cons_cons]

theorem listedKey_eq (h : Unaltered ks) : listedKey ks = ":".intercalate ks := by
  have same : (ks.map fun k => if k == "me" then "msg.sender" else k) = ks := by
    refine (map_congr_left fun k hk => ?_).trans (map_id' ks)
    rw [if_neg (by simpa using (h.1 k hk).2)]
  rw [listedKey,same,joinKeys_eq_intercalate fun k hk => (h.1 k hk).1,h.2]

theorem visitedMapping_eq_ok {p : Program} {n var : Node} {text : String} (h : p.visitedMapping n = .ok (var,text)) :
    p.target (p.outermostIndex n).indexedBase = .ok var ∧
      ∃ ks, p.keyTexts (p.outermostIndex n) = .ok ks ∧ Text.eraseAnnotations text = listedKey ks := by
  obtain ⟨⟨root,ks⟩,path,h⟩ := bind_ok.1 h
  obtain ⟨t,target,h⟩ := bind_ok.1 h
  cases h
  obtain ⟨rfl,ks,texts,rfl⟩ := indexPath_eq_ok path
  exact ⟨target,ks,texts,rfl⟩

end Program

variable {around : List Node} {c m n root : Node} {policy : PrivacyPolicy} {p : Program}

theorem Holds.outermostIndex_eq {first : Nat} {x : Node}
    (h : Holds p first root) (path : Path root (x :: around) c) (solid : c.isLeaflet = false) (other : x.isIndex = false) :
    p.outermostIndex c = c := by
  rw [Program.outermostIndex,h.ancestors_eq path solid,takeWhile_cons_of_neg (by simp [other])]
  rfl

theorem access_index_eq_ok {a : Access} (index : c.isIndex) (h : p.access c = .ok a) :
    c.indexedBase.isName ∧ a.via = some c.id ∧ ∃ t, p.target c.indexedBase = .ok t ∧ t.isStorage ∧ a.target = t.id := by
  cases c with
  | index =>
    unfold Program.access at h
    dsimp only at h
    split at h
    next j label eq =>
      rw [eq]
      obtain ⟨t,target,h⟩ := bind_ok.1 h
      unfold Program.accessOf at h
      split at h
      · cases h
      next stored =>
        split at h
        · cases h
        · cases h
          exact ⟨rfl,rfl,t,target,by simpa using stored,rfl⟩
    next =>
      obtain ⟨_,-,h⟩ := bind_ok.1 h
      cases h
  | _ => cases index

theorem Node.Examines.step (h : n.Examines m) : m = n ∨ ∃ x, n.Examines x ∧ m ∈ x.children := by
  induction h with
  | self => exact .inl rfl
  | @child n c m opened hc inner ih =>
    obtain rfl | ⟨x,hx,hm⟩ := ih
    · exact .inr ⟨n,.self,hc⟩
    · exact .inr ⟨x,.child opened hc hx,hm⟩

theorem Node.Examines.path (path : Path root around n) (h : n.Examines m) : ∃ around', Path root around' m := by
  induction h generalizing around with
  | self => exact ⟨around,path⟩
  | child _ hc _ ih => exact ih (path.child hc)

theorem Node.path_of_mem_assignees {x left : Node} (path : Path root around x)
    (side : left ∈ x.parts) (visited : ∀ e ∈ x.parts, e.isOmitted = false → e ∈ x.children) (other : x.isIndex = false)
    (hc : c ∈ left.assignees) (present : c.isOmitted = false) :
    ∃ y around', Path root (y :: around') c ∧ y.isIndex = false := by
  induction left generalizing x around with
  | step left ih =>
    by_cases tuple : ∃ i es, left = .tuple i es
    · obtain ⟨i,es,rfl⟩ := tuple
      rw [assignees_tuple] at hc
      obtain ⟨e,he,hc⟩ := mem_flatMap.1 hc
      refine ih e he (path.child (visited _ side rfl)) he (fun e he present => ?_) rfl hc
      exact mem_filter.2 ⟨he,by simp [present]⟩
    · rw [assignees.eq_2 _ fun i es eq => tuple ⟨i,es,eq⟩,mem_singleton] at hc
      subst hc
      exact ⟨x,around,path.child (visited _ side present),other⟩

section Linked

variable {s p : Program} {first : Nat} {root f c var : Node}

theorem LinkedSource.path_of_routine (h : LinkedSource s first root) (hf : f ∈ s.routines) : ∃ around, Path root around f := by
  obtain ⟨c,hc,hf⟩ := mem_flatMap.1 hf
  have unit := unit_of_routine hf
  have present := isOmitted_of (isFunction_of_mem hf) rfl
  rw [Program.contracts,h.tree_eq] at hc
  split at hc
  next i units head single =>
    obtain ⟨hc,contract⟩ := mem_filter.1 hc
    cases c with
    | contract j name units' head' tail =>
      have inner : Node.contract j name units' head' tail ∈ (Node.source i units head single).children :=
        mem_filter.2 ⟨hc,rfl⟩
      have outer : f ∈ (Node.contract j name units' head' tail).children :=
        mem_filter.2 ⟨mem_cons_of_mem _ unit,by simp [present]⟩
      exact ⟨_,(Path.root.child inner).child outer⟩
    | _ => cases contract
  next => cases hc

theorem Prepared.examines_of_contains (h : Prepared s) (hf : f ∈ s.routines) (hc : f.Contains c) (examined : s.Examines c)
    (solid : c.isLeaflet = false) : f.Examines c := by
  obtain ⟨g,hg,examined⟩ := examined
  by_cases same : f = g
  · exact same ▸ examined
  · have symm : Std.Symm (Function.onFun List.Disjoint numbers) := ⟨fun _ _ h => List.Disjoint.symm h⟩
    have apart := (nodup_flatMap.1 h.nodup).2.forall hf hg same
    exact (apart (number_mem hc.mem_subtrees solid) (number_mem examined.mem_subtrees solid)).elim

theorem keyed_iff {name : String} (types : s.types = {}) : s.Keyed var name ↔
    var.isStateVariable ∧ var.declaredType.isMapping ∧ Program.nameText var = .ok name := by
  rw [Program.Keyed,← and_assoc]
  refine and_congr_left fun _ => ?_
  unfold FunctionPolicy.isMappingState FunctionPolicy.annotatedType Program.typeOf
  rw [types]
  cases var with
  | stateVariable _ type =>
    cases type with
    | annotated _ t => cases t <;> simp [isStateVariable,declaredType,isMapping,bind,Except.bind,pure,Except.pure]
    | _ => simp [isStateVariable,declaredType,isMapping,bind,Except.bind]
  | _ => simp [isStateVariable,pure,Except.pure]

structure Traced (s p : Program) : Prop where
  linked : LinkedSource s Globals.base.next s.tree
  analysed : Analysed s p
  answers : ∀ m, s.Examines m → s.Answers m

theorem Pipeline.Drawn.traced (h : Drawn policy s p) : Traced s p where
  linked := h.linked
  analysed := h.linked.prepared.analysed h.effects
  answers := by
    rintro m ⟨f,hf,hm⟩
    obtain ⟨r,direct,-⟩ := runs_findEffects.1 h.effects
    obtain ⟨q,q',only,run⟩ := Keeps.runs_of_mem (fun _ _ => effectsOnly_direct) direct hf
    exact only.answers (answers_of_runs run hm)

theorem via_of_access {a : Access} (other : c.isIndex = false) (ok : s.access c = .ok a) : a.via = none := by
  have plain {t key : Node} (ok : Program.accessOf t key .omitted = .ok a) : a.via = none := by
    unfold Program.accessOf at ok
    split at ok
    · cases ok
    · split at ok
      · cases ok
      · cases ok
        rfl
  unfold Program.access at ok
  split at ok
  · exact plain ok
  · obtain ⟨t,-,ok⟩ := bind_ok.1 ok
    exact plain ok
  · obtain ⟨t,-,ok⟩ := bind_ok.1 ok
    exact plain ok
  · cases other
  · cases ok

namespace Traced

variable (h : Traced s p)
include h

variable {a : Access}

theorem viaOf_of_index (hf : f ∈ s.routines) (part : c ∈ f.subtrees) (ok : s.access c = .ok a)
    (index : c.isIndex) :
    s.viaOf a = c ∧ c.indexedBase.isName ∧ s.target c.indexedBase = .ok (s.accessTarget a) := by
  have prepared := h.linked.prepared
  obtain ⟨name,via,t,target,storage,number⟩ := access_index_eq_ok index ok
  have present := isOmitted_of storage rfl
  refine ⟨?_,name,?_⟩
  · rw [Program.viaOf,via]
    exact prepared.node f hf c part (isLeaflet_of_access ok)
  · rw [Program.accessTarget,number,prepared.numbered.node_eq target present]
    exact target

theorem indexed (hf : f ∈ s.routines) (part : c ∈ f.subtrees) (ok : s.access c = .ok a)
    (index : (s.viaOf a).isIndex) :
    c.isIndex ∧ s.viaOf a = c ∧ c.indexedBase.isName ∧ s.target c.indexedBase = .ok (s.accessTarget a) := by
  cases own : c.isIndex with
  | true => exact ⟨rfl,h.viaOf_of_index hf part ok own⟩
  | false =>
    rw [Program.viaOf,via_of_access own ok] at index
    cases index

theorem target_of_index (hf : f ∈ s.routines) (hc : f.Examines c) (index : c.isIndex) :
    ∃ t, s.target c = .ok t ∧ t.isStorage := by
  obtain ⟨around,path⟩ := h.linked.path_of_routine hf
  obtain ⟨around,path⟩ := hc.path path
  cases c with
  | index i base key =>
    obtain ⟨k,target,-,declared⟩ := h.linked.elements i base key path.mem_preorder
    refine ⟨s.node k,by simp [Program.target,target],?_⟩
    cases eq : s.node k with
    | declaration _ kind =>
      rw [eq] at declared
      cases kind <;> first | rfl | cases declared
    | _ =>
      rw [eq] at declared
      cases declared
  | _ => cases index

theorem exists_read_iff (hf : f ∈ s.routines) (P : Node → Prop) :
    (∃ a ∈ p.accesses .read f.id, s.notes .read a ∧ P (s.viaOf a)) ↔
      ∃ c var, f.Examines c ∧ s.isLeftValue c = false ∧ s.IndexesMapping c var ∧ P c := by
  have prepared := h.linked.prepared
  constructor
  · rintro ⟨a,ha,noted,hP⟩
    simp only [Program.notes,Bool.and_eq_true] at noted
    obtain ⟨⟨state,mapping⟩,index⟩ := noted
    rw [h.analysed.mem_accesses_mapping prepared hf state mapping] at ha
    obtain ⟨c,hc,examined,-,place,-,ok⟩ := ha
    obtain ⟨index,via,name,target⟩ := h.indexed hf hc.mem_subtrees ok index
    have inside := prepared.examines_of_contains hf hc examined (isLeaflet_of_access ok)
    exact ⟨c,s.accessTarget a,inside,place,⟨index,name,target,state,mapping⟩,via ▸ hP⟩
  · rintro ⟨c,var,hc,place,indexes,hP⟩
    have examined : s.Examines c := ⟨f,hf,hc⟩
    obtain ⟨t,target,storage⟩ := h.target_of_index hf hc indexes.index
    have readable : c.isReadable := by
      have index := indexes.index
      cases c <;> first | rfl | cases index
    obtain ⟨a,ok⟩ := (h.answers c examined).read readable place t target storage
    obtain ⟨via,-,behind⟩ := h.viaOf_of_index hf hc.mem_subtrees ok indexes.index
    cases indexes.target.symm.trans behind
    refine ⟨a,?_,?_,via ▸ hP⟩
    · refine (h.analysed.mem_accesses_mapping prepared hf indexes.state indexes.mapping).2 ?_
      exact ⟨c,hc.contains,examined,readable,place,⟨t,target,storage⟩,ok⟩
    · simp [Program.notes,indexes.state,indexes.mapping,via,indexes.index]

theorem outermostIndex_of_assigned {i : Info} {toCircuit : Bool} {left right : Node} {op : String}
    (examined : s.Examines (.assign i toCircuit left right op)) (hc : c ∈ left.assignees) (index : c.isIndex) :
    s.outermostIndex c = c := by
  obtain ⟨f,hf,examined⟩ := examined
  obtain ⟨around,path⟩ := h.linked.path_of_routine hf
  obtain ⟨around,path⟩ := Node.Examines.path path examined
  have solid {c : Node} (index : c.isIndex) : c.isLeaflet = false ∧ c.isOmitted = false := by
    cases c <;> first | exact ⟨rfl,rfl⟩ | cases index
  obtain ⟨y,around',path,other⟩ := path_of_mem_assignees path (by simp [parts])
    (fun e he present => mem_filter.2 ⟨he,by simp [present]⟩) rfl hc (solid index).2
  exact h.linked.holds.outermostIndex_eq path (solid index).1 other

/-- What is modified by index: the expression stands on the left of an assignment in the same place. -/
theorem assigned_of_does {d : Node} (hd : s.Does .modified d a) (index : (s.viaOf a).isIndex) :
    ∃ i toCircuit left right op c, d.Contains (.assign i toCircuit left right op) ∧
      s.Examines (.assign i toCircuit left right op) ∧ c ∈ left.assignees ∧ c.isIndex ∧ s.viaOf a = c ∧
      c.indexedBase.isName ∧ s.target c.indexedBase = .ok (s.accessTarget a) := by
  obtain ⟨m,hm,⟨f,hf,examined⟩,done⟩ := hd
  obtain ⟨var,ok⟩ | ⟨i,toCircuit,left,right,op,rfl,c,hc,ok⟩ := done
  · rw [Program.viaOf,via_of_access (by cases m <;> first | rfl | cases var) ok] at index
    cases index
  · have part : c ∈ f.subtrees := by
      refine mem_trans (mem_of_assignee hc) ?_
      exact mem_of_part examined.mem_subtrees (by simp [parts])
    exact ⟨i,toCircuit,left,right,op,c,hm,⟨f,hf,examined⟩,hc,h.indexed hf part ok index⟩

theorem exists_modified (hf : f ∈ s.routines) (assigned : f.Assigns c) (indexes : s.IndexesMapping c var) :
    ∃ a ∈ p.accesses .modified f.id, s.notes .mutate a ∧ s.viaOf a = c := by
  obtain ⟨i,toCircuit,left,right,op,hm,hc⟩ := assigned
  have examined : s.Examines (.assign i toCircuit left right op) := ⟨f,hf,hm⟩
  obtain ⟨a,ok⟩ := (h.answers _ examined).assigned _ _ _ _ _ rfl c hc
  have part : c ∈ f.subtrees := by
    refine mem_trans (mem_of_assignee hc) ?_
    exact mem_of_part hm.mem_subtrees (by simp [parts])
  obtain ⟨via,-,behind⟩ := h.viaOf_of_index hf part ok indexes.index
  cases indexes.target.symm.trans behind
  have compound : (s.accessTarget a).declaredType.isPrimitive = false := by
    have mapping := indexes.mapping
    revert mapping
    cases (s.accessTarget a).declaredType <;> first | exact fun _ => rfl | exact fun h => by cases h
  refine ⟨a,?_,by simp [Program.notes,indexes.state,compound,via,indexes.index],via⟩
  refine (h.analysed.mem_accesses_mapping h.linked.prepared hf indexes.state indexes.mapping).2 ?_
  exact ⟨_,hm.contains,examined,.inr ⟨_,_,_,_,_,rfl,c,hc,ok⟩⟩

theorem exists_mutate_iff (hf : f ∈ s.routines) (name key : String) :
    (∃ a ∈ p.accesses .modified f.id, s.notes .mutate a ∧ s.UsesKey (s.viaOf a) name key) ↔
      ∃ c var, f.Assigns c ∧ s.IndexesMapping c var ∧ s.UsesKey c name key := by
  have prepared := h.linked.prepared
  constructor
  · rintro ⟨a,ha,noted,uses⟩
    simp only [Program.notes,Bool.and_eq_true] at noted
    obtain ⟨⟨state,-⟩,index⟩ := noted
    -- Whoever does it, the key is used on the variable of the access, which therefore is a mapping.
    have mapping : s.isMapping a := by
      obtain ⟨d,-,done⟩ := (h.analysed.mem_accesses_iff prepared hf state).1 ha
      obtain ⟨i,toCircuit,left,right,op,c,-,examined,hc,index,via,name,target⟩ := h.assigned_of_does done index
      obtain ⟨var,text,visited,keyed,-⟩ := uses
      obtain ⟨behind,-⟩ := Program.visitedMapping_eq_ok visited
      rw [via,h.outermostIndex_of_assigned examined hc index] at behind
      cases behind.symm.trans target
      exact ((keyed_iff h.linked.types).1 keyed).2.1
    rw [h.analysed.mem_accesses_mapping prepared hf state mapping] at ha
    obtain ⟨i,toCircuit,left,right,op,c,inside,examined,hc,index,via,name,target⟩ := h.assigned_of_does ha index
    refine ⟨c,s.accessTarget a,⟨i,toCircuit,left,right,op,?_,hc⟩,⟨index,name,target,state,mapping⟩,via ▸ uses⟩
    exact prepared.examines_of_contains hf inside examined rfl
  · rintro ⟨c,var,assigned,indexes,uses⟩
    obtain ⟨a,ha,noted,via⟩ := h.exists_modified hf assigned indexes
    exact ⟨a,ha,noted,via ▸ uses⟩

theorem usesKey_of_visited {r : Node × String} {name : String} (outer : s.outermostIndex c = c)
    (indexes : s.IndexesMapping c var) (called : Program.nameText var = .ok name) (visited : s.visitedMapping c = .ok r) :
    ∃ ks, s.keyTexts c = .ok ks ∧ s.UsesKey c name (Program.listedKey ks) := by
  obtain ⟨v,text⟩ := r
  obtain ⟨target,ks,texts,listed⟩ := Program.visitedMapping_eq_ok visited
  rw [outer] at target texts
  cases indexes.target.symm.trans target
  refine ⟨ks,texts,var,text,visited,?_,listed.symm⟩
  exact (keyed_iff h.linked.types).2 ⟨indexes.state,indexes.mapping,called⟩

theorem outermostIndex_of_alone (hf : f ∈ s.routines) (hc : f.Examines c) (index : c.isIndex)
    (alone : ∀ i base key, f.Examines (.index i base key) → c ≠ base ∧ c ≠ key) : s.outermostIndex c = c := by
  obtain ⟨around,path⟩ := h.linked.path_of_routine hf
  obtain rfl | ⟨x,hx,part⟩ := hc.step
  · obtain ⟨d,-,hf⟩ := mem_flatMap.1 hf
    have function := isFunction_of_mem hf
    cases c with
    | index => cases function
    | _ => cases index
  · obtain ⟨around,path⟩ := Node.Examines.path path hx
    refine h.linked.holds.outermostIndex_eq (path.child part) ?_ ?_
    · cases c <;> first | rfl | cases index
    · cases x with
      | index i base key =>
        have part := part_of_child part
        have apart := alone i base key hx
        simp [parts,apart.1,apart.2] at part
      | _ => rfl

end Traced

end Linked

namespace EffectsOnly

variable {p p' : Program} (h : EffectsOnly p p')
include h

theorem solidity : p'.solidity = p.solidity := by
  rw [h]
  rfl

theorem keyTexts : p'.keyTexts = p.keyTexts := by
  funext n
  fun_induction indexedBase n with
  | case1 _ _ _ ih => rw [Program.keyTexts,ih,h.solidity,Program.keyTexts]
  | case2 n other => rw [Program.keyTexts.eq_2 p' n other,Program.keyTexts.eq_2 p n other]

theorem indexPath : p'.indexPath = p.indexPath := by
  funext n
  fun_induction indexedBase n with
  | case1 _ _ _ ih => rw [Program.indexPath,ih,h.solidity,Program.indexPath]
  | case2 n other => rw [Program.indexPath.eq_2 p' n other,Program.indexPath.eq_2 p n other]

theorem outermostIndex : p'.outermostIndex = p.outermostIndex := by
  funext n
  rw [Program.outermostIndex,Program.ancestors,h.chain,h.next]
  rfl

theorem visitedMapping : p'.visitedMapping = p.visitedMapping := by
  funext n
  rw [Program.visitedMapping,h.outermostIndex,h.indexPath,Program.visitedMapping]
  simp only [h.target]

theorem viaOf : p'.viaOf = p.viaOf := by
  rw [h]
  rfl

theorem notes : p'.notes = p.notes := by
  funext s a
  unfold Program.notes
  rw [h.viaOf,h.accessTarget]

theorem usesKey : p'.UsesKey = p.UsesKey := by
  funext n name key
  have keyed : p'.Keyed = p.Keyed := by
    rw [h]
    rfl
  rw [Program.UsesKey,h.visitedMapping,keyed,Program.UsesKey]

theorem indexesMapping {var : Node} : p'.IndexesMapping c var ↔ p.IndexesMapping c var :=
  ⟨fun m => ⟨m.index,m.name,h.target _ ▸ m.target,m.state,m.mapping⟩,
    fun m => ⟨m.index,m.name,(h.target _).trans m.target,m.state,m.mapping⟩⟩

end EffectsOnly

theorem Node.mem_postorder_iff : m ∈ n.postorder ↔ m ∈ n.preorder := by
  induction n with
  | step n ih =>
    have eq : n.postorder = n.children.flatMap postorder ++ [n] := by
      rw [postorder]
      simp
    rw [eq,preorder_eq,mem_append,mem_singleton,mem_cons,mem_flatMap,mem_flatMap,or_comm]
    refine or_congr_right (exists_congr fun c => and_congr_right fun hc => ?_)
    exact ih c (part_of_child hc)

theorem Pipeline.Drawn.exists_policy {s q : Program} {f : Node} (h : Drawn policy s q)
    (hf : f ∈ s.routines) : ∃ fp ∈ policy.functions, FunctionPolicy.ofFunction q f = .ok fp := by
  obtain ⟨around,path⟩ := h.linked.path_of_routine hf
  have tree : q.tree = s.tree := by
    rw [h.traced.analysed.only]
    rfl
  obtain ⟨c,-,hf⟩ := mem_flatMap.1 hf
  refine PrivacyPolicy.exists_of_ofProgram h.policy_eq ?_ (isFunction_of_mem hf)
  exact tree ▸ mem_postorder_iff.2 path.mem_preorder

def FunctionPolicy.ListsChain (fp : FunctionPolicy) (p : Program) (s : Section) (name : String) (c : Node) : Prop :=
  ∃ ks, p.keyTexts c = .ok ks ∧ fp.Lists s name (Program.listedKey ks) ∧
    (Program.Unaltered ks → fp.Lists s name (":".intercalate ks))

/-- The policies of functions miss no access to a mapping. A chain of index expressions that is no key of
another one is listed with its keys where it is read and where a value is stored at it. Nothing else is listed:
an access is entered under the outermost of the index expressions directly around it. -/
theorem mapping_accesses_listed {settings : Settings} {text : String} {compiler : Option Solc.Answer}
    {policy : PrivacyPolicy} {p : Program}
    (run : Runs (Pipeline.process text compiler) { Globals.base with settings } policy p) :
    ∀ f ∈ p.routines, ∃ fp ∈ policy.functions, Program.nameText f = .ok fp.name ∧
      (∀ c var name, p.IndexesMapping c var → Program.nameText var = .ok name →
        (f.Examines c → p.isLeftValue c = false → (∀ i base key, f.Examines (.index i base key) → c ≠ base ∧ c ≠ key) →
          fp.ListsChain p .read name c) ∧
        (f.Assigns c → fp.ListsChain p .mutate name c)) ∧
      ∀ name key,
        (fp.Lists .read name key ↔
          ∃ c var, f.Examines c ∧ p.isLeftValue c = false ∧ p.IndexesMapping c var ∧ p.UsesKey c name key) ∧
        (fp.Lists .mutate name key ↔ ∃ c var, f.Assigns c ∧ p.IndexesMapping c var ∧ p.UsesKey c name key) := by
  obtain ⟨s,q,drawn,printed⟩ := Pipeline.drawn_of_runs run
  have traced := drawn.traced
  have before : EffectsOnly s q := traced.analysed.only
  have only : EffectsOnly s p := IsTrans.trans _ _ _ before printed.effectsOnly
  simp only [only.routines,only.isLeftValue,only.indexesMapping,only.usesKey,FunctionPolicy.ListsChain,only.keyTexts]
  intro f hf
  obtain ⟨fp,mem,made⟩ := drawn.exists_policy hf
  obtain ⟨name',named,covers⟩ := FunctionPolicy.covers_ofFunction made
  have read (name key : String) : fp.Lists .read name key ↔
      ∃ c var, f.Examines c ∧ s.isLeftValue c = false ∧ s.IndexesMapping c var ∧ s.UsesKey c name key := by
    rw [← traced.exists_read_iff hf fun c => s.UsesKey c name key,covers.read,before.notes,before.viaOf,before.usesKey]
    rfl
  have mutate (name key : String) : fp.Lists .mutate name key ↔
      ∃ c var, f.Assigns c ∧ s.IndexesMapping c var ∧ s.UsesKey c name key := by
    rw [← traced.exists_mutate_iff hf,covers.mutate,before.notes,before.viaOf,before.usesKey]
    rfl
  refine ⟨fp,mem,covers.name_eq ▸ named,fun c var name indexes called => ⟨fun hc place alone => ?_,fun assigned => ?_⟩,
    fun name key => ⟨read name key,mutate name key⟩⟩
  · obtain ⟨a,ha,noted,via⟩ := (traced.exists_read_iff hf (· = c)).2 ⟨c,var,hc,place,indexes,rfl⟩
    rw [← before.notes] at noted
    obtain ⟨r,visited⟩ := covers.visited_read a ha noted
    rw [before.visitedMapping,before.viaOf,via] at visited
    have outer := traced.outermostIndex_of_alone hf hc indexes.index alone
    obtain ⟨ks,texts,uses⟩ := traced.usesKey_of_visited outer indexes called visited
    have listed := (read name _).2 ⟨c,var,hc,place,indexes,uses⟩
    exact ⟨ks,texts,listed,fun plain => Program.listedKey_eq plain ▸ listed⟩
  · obtain ⟨a,ha,noted,via⟩ := traced.exists_modified hf assigned indexes
    rw [← before.notes] at noted
    obtain ⟨r,visited⟩ := covers.visited_mutate a ha noted
    rw [before.visitedMapping,before.viaOf,via] at visited
    have ⟨i,toCircuit,left,right,op,examined,side⟩ := assigned
    have outer := traced.outermostIndex_of_assigned ⟨f,hf,examined⟩ side indexes.index
    obtain ⟨ks,texts,uses⟩ := traced.usesKey_of_visited outer indexes called visited
    have listed := (mutate name _).2 ⟨c,var,assigned,indexes,uses⟩
    exact ⟨ks,texts,listed,fun plain => Program.listedKey_eq plain ▸ listed⟩

def countingContract : String :=
  "pragma cloak ^0.2.0;\ncontract C \x7b\n    mapping(address => mapping(uint => uint)) m;\n" ++
    "    function f(uint i) public \x7b\n        m[me][i] = m[me][i] + 1;\n    \x7d\n\x7d\n"

theorem countingContract_listed : ∃ policy p,
    Runs (Pipeline.process countingContract none) { Globals.base with settings := {} } policy p ∧
    ∃ f ∈ p.routines, ∃ fp ∈ policy.functions, Program.nameText f = .ok fp.name ∧
      fp.Lists .read "m" "msg.sender:i" ∧ fp.Lists .mutate "m" "msg.sender:i" ∧
      (∃ c var, f.Examines c ∧ p.isLeftValue c = false ∧ p.IndexesMapping c var ∧ p.UsesKey c "m" "msg.sender:i") ∧
      ∃ c var, f.Assigns c ∧ p.IndexesMapping c var ∧ p.UsesKey c "m" "msg.sender:i" := by
  have chars : countingContract = String.ofList _ := append_eq_ofList rfl rfl
  have evaluated : (Pipeline.process countingContract none).succeeds { Globals.base with settings := {} }
      (fun policy p => !p.routines.isEmpty &&
      policy.functions.all fun fp => fp.Lists .read "m" "msg.sender:i" && fp.Lists .mutate "m" "msg.sender:i") = true := by
    rw [Pipeline.process,load_eq chars]
    decide +kernel
  obtain ⟨policy,p,run,evaluated⟩ := of_succeeds evaluated
  simp only [Bool.and_eq_true,Bool.not_eq_true',isEmpty_eq_false_iff_exists_mem,all_eq_true,
    decide_eq_true_eq] at evaluated
  obtain ⟨⟨f,hf⟩,listed⟩ := evaluated
  obtain ⟨fp,mem,named,-,exact'⟩ := mapping_accesses_listed run f hf
  obtain ⟨read,mutate⟩ := listed fp mem
  obtain ⟨reads,mutates⟩ := exact' "m" "msg.sender:i"
  exact ⟨policy,p,run,f,hf,fp,mem,named,read,mutate,reads.1 read,mutates.1 mutate⟩

end Confidential
