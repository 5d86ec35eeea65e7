import Confidential.Proofs.LinkedSource

/-!
Owners in policies and ciphertexts in public contracts. A policy goes down through the mappings of a type and
takes the owner it finds in the end, while the public form of a type becomes a ciphertext at the first owner
that is not everybody. Main statement: the two agree if and only if the owners above the innermost value are
all `all`, and a value that everybody owns has no owner, and no parameter, within its type.
-/

namespace Confidential

open List Node Pass Program

variable {q q' : Program}

/-! ### Rebuilding the visited parts of a node -/

namespace Node

theorem length_visitedPlaces (n : Node) : n.visitedPlaces.length = n.parts.length := by
  cases n <;> simp [visitedPlaces,parts]

theorem mem_zip_visitedPlaces {n c : Node} : (c,true) ∈ n.parts.zip n.visitedPlaces ↔ c ∈ n.visited := by
  have flagged (as : List Node) (f : Node → Bool) : (c,true) ∈ as.zip (as.map f) ↔ c ∈ as ∧ f c := by
    induction as with
    | nil => simp
    | cons _ _ ih =>
      rw [map_cons,zip_cons_cons,mem_cons,ih,Prod.mk.injEq,mem_cons]
      grind
  cases n with
  | mapping _ _ b => cases h : b.isIdentifier <;> simp [visitedPlaces,parts,visited,h]
  | _ => simp [visitedPlaces,parts,visited,zip_append,flagged,-map_const',-map_const_fun]

theorem info_withParts (n : Node) (ps : List Node) : (n.withParts ps).info = n.info := by
  cases n <;> rfl

end Node

/-- Steps that change nothing: every result belongs to an element, and every element has a result. -/
theorem runs_mapM_still {α β : Type} {f : α → Pass β} {as : List α} {bs : List β}
    (still : ∀ a ∈ as, ∀ b q', Runs (f a) q b q' → q' = q) (run : Runs (as.mapM f) q bs q') :
    q' = q ∧ bs.length = as.length ∧ (∀ b ∈ bs, ∃ a ∈ as, Runs (f a) q b q) ∧ ∀ a ∈ as, ∃ b ∈ bs, Runs (f a) q b q := by
  induction as generalizing bs with
  | nil =>
    obtain ⟨rfl,rfl⟩ := runs_mapM_nil.1 run
    simp
  | cons a _ ih =>
    rw [forall_mem_cons] at still
    obtain ⟨b,bs,q₁,first,rest,rfl⟩ := runs_mapM_cons.1 run
    obtain rfl := still.1 b q₁ first
    obtain ⟨rfl,length,back,forth⟩ := ih still.2 rest
    refine ⟨rfl,by simp [length],?_,?_⟩
    · rw [forall_mem_cons]
      refine ⟨⟨a,mem_cons_self,first⟩,fun b hb => ?_⟩
      obtain ⟨a',ha',run⟩ := back b hb
      exact ⟨a',mem_cons_of_mem a ha',run⟩
    · rw [forall_mem_cons]
      refine ⟨⟨b,mem_cons_self,first⟩,fun a ha => ?_⟩
      obtain ⟨b',hb',run⟩ := forth a ha
      exact ⟨b',mem_cons_of_mem b hb',run⟩

section Visited

variable {n n' : Node} {f : Node → Pass Node}

def visitPart (f : Node → Pass Node) (e : { c // c ∈ n.parts } × Bool) : Pass Node :=
  if e.2 && !e.1.1.isOmitted then f e.1.1 else pure e.1.1

theorem mem_children_iff_zip {c : Node} :
    c ∈ n.children ↔ ∃ e ∈ n.parts.attach.zip n.visitedPlaces, e.1.1 = c ∧ (e.2 && !c.isOmitted) := by
  have places : (n.parts.attach.zip n.visitedPlaces).map (Prod.map Subtype.val fun b => b) = n.parts.zip n.visitedPlaces := by
    have eq := congrArg (List.zip · n.visitedPlaces) (attach_map_subtype_val n.parts)
    exact zip_map_left.symm.trans eq
  rw [children,mem_filter,← mem_zip_visitedPlaces,← places,mem_map]
  constructor
  · rintro ⟨⟨e,he,eq⟩,present⟩
    obtain ⟨rfl,visited⟩ := Prod.mk.inj eq
    exact ⟨e,he,rfl,by simp [visited,present]⟩
  · rintro ⟨e,he,rfl,visited⟩
    rw [Bool.and_eq_true] at visited
    exact ⟨⟨e,he,Prod.ext rfl visited.1⟩,visited.2⟩

theorem runs_mapVisited (still : ∀ c ∈ n.children, ∀ c' q', Runs (f c) q c' q' → q' = q)
    (run : Runs (n.mapVisited fun c _ => f c) q n' q') :
    q' = q ∧ ∃ ps, n' = n.withParts ps ∧ n'.parts = ps ∧ (∀ c' ∈ ps, c' ∈ n.parts ∨ ∃ c ∈ n.children, Runs (f c) q c' q) ∧
      ∀ c ∈ n.children, ∃ c' ∈ ps, Runs (f c) q c' q := by
  obtain ⟨ps,q₁,parts,run⟩ := runs_bind.1 run
  obtain ⟨rfl,rfl⟩ := runs_pure.1 run
  have still : ∀ e ∈ n.parts.attach.zip n.visitedPlaces, ∀ c' q', Runs (visitPart f e) q c' q' → q' = q := by
    intro e he c' q' run
    unfold visitPart at run
    split at run
    next visited => exact still _ (mem_children_iff_zip.2 ⟨e,he,rfl,visited⟩) _ _ run
    next => exact (runs_pure.1 run).2.symm
  obtain ⟨rfl,length,back,forth⟩ := runs_mapM_still still parts
  refine ⟨rfl,ps,rfl,parts_withParts ?_,fun c' hc' => ?_,fun c hc => ?_⟩
  · rw [length,length_zip,length_attach,length_visitedPlaces,Nat.min_self]
  · obtain ⟨e,he,run⟩ := back c' hc'
    unfold visitPart at run
    split at run
    next visited => exact .inr ⟨_,mem_children_iff_zip.2 ⟨e,he,rfl,visited⟩,run⟩
    next => exact .inl ((runs_pure.1 run).1 ▸ e.1.2)
  · obtain ⟨e,he,rfl,visited⟩ := mem_children_iff_zip.1 hc
    obtain ⟨c',hc',run⟩ := forth e he
    rw [visitPart,if_pos visited] at run
    exact ⟨c',hc',run⟩

theorem exists_runs_mapVisited (each : ∀ c ∈ n.children, ∃ c', Runs (f c) q c' q) :
    ∃ n', Runs (n.mapVisited fun c _ => f c) q n' q := by
  have step : ∀ e ∈ n.parts.attach.zip n.visitedPlaces, ∀ p, p = q → Ends (visitPart f e) p fun _ => (· = q) := by
    rintro e he _ rfl
    unfold visitPart
    split
    next visited =>
      obtain ⟨c',run⟩ := each _ (mem_children_iff_zip.2 ⟨e,he,rfl,visited⟩)
      exact ⟨c',_,run,rfl⟩
    next => exact .pure rfl
  obtain ⟨ps,_,run,rfl⟩ := Ends.mapM_of_forall step rfl
  exact ⟨n.withParts ps,runs_bind.2 ⟨ps,_,run,runs_pure.2 ⟨rfl,rfl⟩⟩⟩

end Visited

/-! ### The public form of a type -/

namespace Ciphertext

def typeRoles : List Role :=
  [.empty,.word,.label,.expression,.arguments,.typeName,.type,.annotated,.parameter]

theorem below_typeRoles : ∀ r ∈ typeRoles, ∀ c ∈ r.below, c ∈ typeRoles := by
  decide

def isOpen (n : Node) : Bool :=
  !isPrivateType n && !n.isParameter

def Apart (q : Program) (n : Node) : Prop :=
  ∀ m ∈ n.preorder, m.isParameter → ∀ f q', Runs (relatedFunction m) q f q' → f.isOmitted

/-- A type as it stands in a numbered source, away from functions. -/
structure Standing (q : Program) (n : Node) : Prop where
  proper : n.Proper
  role : n.role ∈ typeRoles
  numbered : ∀ m ∈ n.subtrees, m.isLeaflet = false → 0 < m.id
  apart : Apart q n

variable {n n' c : Node}

variable {t : Node} {i : Info}

theorem Standing.child (h : Standing q n) (hc : c ∈ n.children) : Standing q c := by
  have part := part_of_child hc
  refine ⟨(proper_iff.1 h.proper).2 c part,?_,fun m hm => ?_,fun m hm => ?_⟩
  · exact below_typeRoles _ h.role _ ((isProper_iff.1 (proper_iff.1 h.proper).1).1 c part)
  · exact h.numbered m (mem_subtrees.2 (.inr ⟨c,part,hm⟩))
  · refine h.apart m ?_
    rw [preorder_eq]
    exact .tail _ (mem_flatMap.2 ⟨c,hc,hm⟩)

theorem type_notMem (h : ∀ m ∈ n.subtrees, m.isLeaflet = false → 0 < m.id) : type ∉ n.subtrees :=
  fun mem => Nat.lt_irrefl 0 (h type mem rfl)

theorem type_mem (other : n ≠ type) : type ∈ n.subtrees ↔ ∃ c ∈ n.parts, type ∈ c.subtrees := by
  rw [mem_subtrees,or_iff_right fun eq => other eq.symm]

theorem type_mem_publicType : type ∈ (publicType t).subtrees ↔ type ∈ t.subtrees := by
  have owner : type ∉ (Node.owner {} .all).subtrees := by
    rw [type_mem (by simp [type])]
    simp [Node.parts]
  rw [type_mem (by simp [publicType,type])]
  simp [publicType,Node.parts,owner]

theorem declaration_eq (named : n.role ∈ typeRoles) (parameter : n.isParameter = false)
    (annotated : ∀ i t written owner, n ≠ .annotated i t written owner)
    (mapping : ∀ i key label value, n ≠ .mapping i key label value) :
    declaration n = n.mapVisited fun c _ => declaration c := by
  rw [declaration.eq_def]
  split
  next => exact absurd rfl (annotated _ _ _ _)
  next => exact absurd rfl (mapping _ _ _ _)
  all_goals simp_all [isParameter,role,DeclKind.role,typeRoles]

theorem isOpen_of_other (parameter : n.isParameter = false)
    (annotated : ∀ i t written owner, n ≠ .annotated i t written owner) : isOpen n := by
  unfold isOpen isPrivateType
  split
  next => exact absurd rfl (annotated _ _ _ _)
  next => exact absurd rfl (annotated _ _ _ _)
  next => simp [parameter]

theorem runs_annotated {owner : Node} {written : Bool} : Runs (declaration (.annotated i t written owner)) q n' q' ↔
      if isPrivateType (.annotated i t written owner) then n' = publicType type ∧ q' = q
      else ∃ t', Runs (declaration t) q t' q' ∧ n' = publicType t' := by
  rw [declaration]
  split
  · simp only [runs_pure]
    grind
  · simp only [runs_bind,runs_pure]
    grind

/-- The name of a key loses its place in the source. -/
def plainLabel : Node → Node
  | .identifier _ x => .plain (.text x)
  | n => n

theorem runs_mapping {key label value : Node} (hl : label.role = .empty ∨ label.role = .label) :
    Runs (declaration (.mapping i key label value)) q n' q' ↔
      ∃ key' q₁ value', Runs (declaration key) q key' q₁ ∧ Runs (declaration value) q₁ value' q' ∧
        n' = .mapping i key' (plainLabel label) value' := by
  have rest {l : Node} : Runs (do return .mapping i (← declaration key) l (← declaration value)) q n' q' ↔
      ∃ key' q₁ value', Runs (declaration key) q key' q₁ ∧ Runs (declaration value) q₁ value' q' ∧
        n' = .mapping i key' l value' := by
    simp only [runs_bind,runs_pure]
    grind
  rw [declaration.eq_def]
  cases label with
  | omitted | identifier => exact rest
  | declaration _ kind => cases kind <;> simp [role,DeclKind.role] at hl
  | statements _ kind => cases kind <;> simp [role,ListKind.role] at hl
  | _ => simp [role] at hl

theorem not_runs_parameter (parameter : n.isParameter) (apart : Apart q n) : ¬ Runs (declaration n) q n' q' := by
  intro run
  obtain ⟨i,keywords,t,label,storage,rfl⟩ :
      ∃ i keywords t label storage, n = .declaration i .parameter keywords t label storage := by
    unfold isParameter at parameter
    split at parameter
    · exact ⟨_,_,_,_,_,rfl⟩
    · cases parameter
  rw [declaration] at run
  obtain ⟨f,q₁,related,run⟩ := runs_bind.1 run
  rw [if_pos (apart _ (self_mem_preorder _) rfl f q₁ related)] at run
  exact absurd run runs_throw_bind

theorem isOmitted_of_role (h : n.role ≠ .empty) : n.isOmitted = false := by
  cases n <;> first | rfl | exact absurd rfl h

theorem exists_mem_preorder {P : Node → Prop} : (∃ m ∈ n.preorder, P m) ↔ P n ∨ ∃ c ∈ n.children, ∃ m ∈ c.preorder, P m := by
  rw [preorder_eq]
  simp [mem_flatMap]
  grind

section Levels

variable {i : Info} {t owner key label value : Node} {written : Bool}

theorem Standing.child_annotated (h : Standing q (.annotated i t written owner)) :
    t ∈ (Node.annotated i t written owner).children := by
  have role := (isProper_iff.1 (proper_iff.1 h.proper).1).1 t (by simp [Node.parts])
  refine mem_filter.2 ⟨by simp [visited,Node.parts],?_⟩
  rw [isOmitted_of_role fun empty => ?_]
  · rfl
  · rw [empty] at role
    simp [Role.below,Node.role] at role

theorem Standing.mapping_places (h : Standing q (.mapping i key label value)) :
    key.role = .typeName ∧ (label.role = .empty ∨ label.role = .label) ∧ value.role = .annotated := by
  have places := (isProper_iff.1 (proper_iff.1 h.proper).1).2.1
  simpa [keepsPlaces,and_assoc] using places

theorem Standing.child_mapping (h : Standing q (.mapping i key label value)) :
    key ∈ (Node.mapping i key label value).children ∧ value ∈ (Node.mapping i key label value).children := by
  obtain ⟨hk,-,hv⟩ := h.mapping_places
  have present {c : Node} (hc : c.role ≠ .empty) : (!c.isOmitted) := by rw [isOmitted_of_role hc]; rfl
  refine ⟨mem_filter.2 ⟨?_,present (by simp [hk])⟩,mem_filter.2 ⟨?_,present (by simp [hv])⟩⟩
  all_goals
    change _ ∈ if label.isIdentifier then [key,label,value] else [key,value]
    split <;> simp

theorem isOpen_label (h : label.role = .empty ∨ label.role = .label) : ∀ m ∈ label.preorder, isOpen m := by
  rw [preorder_eq]
  cases label with
  | omitted | identifier => simp [children,visited,Node.parts,isOpen,isPrivateType,isParameter]
  | declaration _ kind => cases kind <;> simp [Node.role,DeclKind.role] at h
  | statements _ kind => cases kind <;> simp [Node.role,ListKind.role] at h
  | _ => simp [Node.role] at h

theorem Standing.closed_mapping (h : Standing q (.mapping i key label value)) :
    (∃ m ∈ (Node.mapping i key label value).preorder, isOpen m = false) ↔
      (∃ m ∈ key.preorder, isOpen m = false) ∨ ∃ m ∈ value.preorder, isOpen m = false := by
  obtain ⟨hk,hv⟩ := h.child_mapping
  rw [exists_mem_preorder]
  constructor
  · rintro (closed | ⟨c,hc,m,hm,closed⟩)
    · cases closed
    · have hc := part_of_child hc
      simp only [Node.parts,mem_cons,not_mem_nil,or_false] at hc
      obtain rfl | rfl | rfl := hc
      · exact .inl ⟨m,hm,closed⟩
      · rw [isOpen_label h.mapping_places.2.1 m hm] at closed
        cases closed
      · exact .inr ⟨m,hm,closed⟩
  · rintro (closed | closed)
    · exact .inr ⟨key,hk,closed⟩
    · exact .inr ⟨value,hv,closed⟩

theorem type_mem_mapping {key' value' : Node} (hl : label.role = .empty ∨ label.role = .label) :
    type ∈ (Node.mapping i key' (plainLabel label) value').subtrees ↔ type ∈ key'.subtrees ∨ type ∈ value'.subtrees := by
  have plain : type ∉ (plainLabel label).subtrees := by
    cases label with
    | omitted | identifier => simp [plainLabel,subtrees_eq,Node.parts,type]
    | declaration _ kind => cases kind <;> simp [Node.role,DeclKind.role] at hl
    | statements _ kind => cases kind <;> simp [Node.role,ListKind.role] at hl
    | _ => simp [Node.role] at hl
  rw [type_mem (by simp [type])]
  simp [Node.parts,plain]

theorem Standing.closed_annotated (h : Standing q (.annotated i t written owner))
    (shown : isPrivateType (.annotated i t written owner) = false) :
    (∃ m ∈ (Node.annotated i t written owner).preorder, isOpen m = false) ↔ ∃ m ∈ t.preorder, isOpen m = false := by
  rw [exists_mem_preorder]
  constructor
  · rintro (closed | ⟨c,hc,m,hm,closed⟩)
    · simp [isOpen,shown,isParameter] at closed
    · have hc := part_of_child hc
      simp only [Node.parts,mem_cons,not_mem_nil,or_false] at hc
      obtain rfl | rfl := hc
      · exact ⟨m,hm,closed⟩
      · unfold isPrivateType at shown
        split at shown
        next eq =>
          injection eq with _ _ _ eq
          subst eq
          simp only [preorder_eq,children,visited,Node.parts,filter_nil,flatMap_nil,mem_singleton] at hm
          subst hm
          cases closed
        · cases shown
        next other => exact absurd rfl (other _ _ _ _)
  · exact fun closed => .inr ⟨t,h.child_annotated,closed⟩

end Levels

theorem Standing.runs_mapVisited (h : Standing q n) (plain : isOpen n)
    (below : ∀ c ∈ n.children, ∀ c' q', Runs (declaration c) q c' q' →
      q' = q ∧ (type ∈ c'.subtrees ↔ ∃ m ∈ c.preorder, isOpen m = false))
    (run : Runs (n.mapVisited fun c _ => declaration c) q n' q') :
    q' = q ∧ (type ∈ n'.subtrees ↔ ∃ m ∈ n.preorder, isOpen m = false) := by
  obtain ⟨rfl,ps,rfl,parts,back,forth⟩ :=
    Confidential.runs_mapVisited (fun c hc c' q' run => (below c hc c' q' run).1) run
  have other : n.withParts ps ≠ type := by
    intro eq
    have solid : n.isLeaflet = false := by
      rw [← isLeaflet_withParts n ps,eq]
      rfl
    have number : n.id = 0 := by
      rw [Node.id,← info_withParts n ps,eq]
      rfl
    exact absurd (h.numbered n self_mem solid) (by omega)
  rw [type_mem other,parts,exists_mem_preorder,plain]
  refine ⟨rfl,?_,?_⟩
  · rintro ⟨c',hc',mem⟩
    refine .inr ?_
    obtain part | ⟨c,hc,run⟩ := back c' hc'
    · exact absurd mem (type_notMem fun m hm => h.numbered m (mem_subtrees.2 (.inr ⟨c',part,hm⟩)))
    · exact ⟨c,hc,(below c hc c' _ run).2.1 mem⟩
  · rintro (closed | ⟨c,hc,closed⟩)
    · cases closed
    · obtain ⟨c',hc',run⟩ := forth c hc
      exact ⟨c',hc',(below c hc c' _ run).2.2 closed⟩

theorem Standing.runs_declaration (h : Standing q n) (run : Runs (declaration n) q n' q') :
    q' = q ∧ (type ∈ n'.subtrees ↔ ∃ m ∈ n.preorder, isOpen m = false) := by
  induction n generalizing n' q' with
  | step n ih =>
    have below (c : Node) (hc : c ∈ n.children) (c' : Node) (q' : Program) (run : Runs (declaration c) q c' q') :
        q' = q ∧ (type ∈ c'.subtrees ↔ ∃ m ∈ c.preorder, isOpen m = false) :=
      ih c (part_of_child hc) (h.child hc) run
    by_cases parameter : n.isParameter
    · exact absurd run (not_runs_parameter parameter h.apart)
    by_cases annotated : ∃ i t written owner, n = .annotated i t written owner
    · obtain ⟨i,t,written,owner,rfl⟩ := annotated
      replace run := runs_annotated.1 run
      split at run
      next hidden =>
        obtain ⟨rfl,rfl⟩ := run
        refine ⟨rfl,iff_of_true (type_mem_publicType.2 self_mem) ⟨_,self_mem_preorder _,?_⟩⟩
        simp [isOpen,hidden]
      next shown =>
        obtain ⟨t',run,rfl⟩ := run
        obtain ⟨rfl,inside⟩ := below t h.child_annotated _ _ run
        rw [type_mem_publicType,inside,h.closed_annotated (by simpa using shown)]
        exact ⟨rfl,.rfl⟩
    by_cases mapping : ∃ i key label value, n = .mapping i key label value
    · obtain ⟨i,key,label,value,rfl⟩ := mapping
      obtain ⟨key',q₁,value',first,second,rfl⟩ := (runs_mapping h.mapping_places.2.1).1 run
      obtain ⟨rfl,inKey⟩ := below key h.child_mapping.1 _ _ first
      obtain ⟨rfl,inValue⟩ := below value h.child_mapping.2 _ _ second
      refine ⟨rfl,?_⟩
      rw [type_mem_mapping h.mapping_places.2.1,inKey,inValue,h.closed_mapping]
    · have annotated i t written owner : n ≠ .annotated i t written owner := fun eq => annotated ⟨i,t,written,owner,eq⟩
      have mapping i key label value : n ≠ .mapping i key label value := fun eq => mapping ⟨i,key,label,value,eq⟩
      rw [Bool.not_eq_true] at parameter
      rw [declaration_eq h.role parameter annotated mapping] at run
      exact h.runs_mapVisited (isOpen_of_other parameter annotated) below run

theorem Standing.exists_runs_declaration (h : Standing q n) (opened : ∀ m ∈ n.preorder, isOpen m) :
    ∃ n', Runs (declaration n) q n' q := by
  induction n with
  | step n ih =>
    have below (c : Node) (hc : c ∈ n.children) : ∃ c', Runs (declaration c) q c' q := by
      refine ih c (part_of_child hc) (h.child hc) fun m hm => opened m ?_
      rw [preorder_eq]
      exact .tail _ (mem_flatMap.2 ⟨c,hc,hm⟩)
    have own := opened n (self_mem_preorder n)
    rw [isOpen,Bool.and_eq_true,Bool.not_eq_true',Bool.not_eq_true'] at own
    by_cases annotated : ∃ i t written owner, n = .annotated i t written owner
    · obtain ⟨i,t,written,owner,rfl⟩ := annotated
      obtain ⟨t',run⟩ := below t h.child_annotated
      refine ⟨publicType t',runs_annotated.2 ?_⟩
      rw [own.1]
      exact ⟨t',run,rfl⟩
    by_cases mapping : ∃ i key label value, n = .mapping i key label value
    · obtain ⟨i,key,label,value,rfl⟩ := mapping
      obtain ⟨key',first⟩ := below key h.child_mapping.1
      obtain ⟨value',second⟩ := below value h.child_mapping.2
      exact ⟨_,(runs_mapping h.mapping_places.2.1).2 ⟨key',q,value',first,second,rfl⟩⟩
    · rw [declaration_eq h.role own.2 (fun i t written owner eq => annotated ⟨i,t,written,owner,eq⟩)
        fun i key label value eq => mapping ⟨i,key,label,value,eq⟩]
      exact exists_runs_mapVisited below

/-! ### The owners of a type -/

theorem mapVisited_eq_pure (unvisited : n.visited = []) : (n.mapVisited fun c _ => declaration c) = pure n := by
  have steps {as : List ({ c // c ∈ n.parts } × Bool)} (each : ∀ e ∈ as, visitPart declaration e = pure e.1.1) :
      as.mapM (visitPart declaration) = pure (as.map (·.1.1)) := by
    induction as with
    | nil => rfl
    | cons _ _ ih =>
      rw [forall_mem_cons] at each
      rw [mapM_cons,each.1,ih each.2,map_cons,pure_bind,pure_bind]
  have places : (n.parts.attach.zip n.visitedPlaces).map (·.1.1) = n.parts := by
    have first : (n.parts.attach.zip n.visitedPlaces).map Prod.fst = n.parts.attach :=
      map_fst_zip (by rw [length_attach,length_visitedPlaces])
    calc (n.parts.attach.zip n.visitedPlaces).map (·.1.1)
      _ = ((n.parts.attach.zip n.visitedPlaces).map Prod.fst).map Subtype.val := by rw [map_map]; rfl
      _ = n.parts := by rw [first,attach_map_subtype_val]
  change (do return n.withParts (← (n.parts.attach.zip n.visitedPlaces).mapM (visitPart declaration))) = _
  rw [steps fun e he => if_neg fun visited => ?_,places,pure_bind,withParts_parts]
  have child : e.1.1 ∈ n.children := mem_children_iff_zip.2 ⟨e,he,rfl,visited⟩
  rw [children,unvisited] at child
  cases child

theorem runs_typeName (named : n.role = .typeName) : Runs (declaration n) q n' q' ↔ n' = n ∧ q' = q := by
  have kept : declaration n = pure n := by
    cases n with
    | elementary =>
      exact (declaration_eq (by simp [Node.role,typeRoles]) rfl (by simp) (by simp)).trans (mapVisited_eq_pure rfl)
    | userType =>
      exact (declaration_eq (by simp [Node.role,typeRoles]) rfl (by simp) (by simp)).trans (mapVisited_eq_pure rfl)
    | declaration _ kind => cases kind <;> simp [Node.role,DeclKind.role] at named
    | statements _ kind => cases kind <;> simp [Node.role,ListKind.role] at named
    | _ => simp [Node.role] at named
  rw [kept,runs_pure,eq_comm,eq_comm (a := q)]

end Ciphertext

namespace Ownership

variable {t : Node} {o : Ownership}

def innermost : Node → Outcome String
  | .annotated _ (.mapping _ _ _ value) _ _ => innermost value
  | .annotated _ _ _ who => who.code {}
  | _ => .error .absent

theorem innermost_of_below {level position : Int} (h : below level position t = .ok o) :
    ∃ who, innermost t = .ok who ∧ (o = .single "all" ↔ who = "all") := by
  fun_induction below level position t with
  | case1 _ _ _ _ _ _ _ _ _ ih => exact ih h
  | case2 _ _ _ _ _ _ other =>
    obtain ⟨who,code,h⟩ := bind_ok.1 h
    refine ⟨who,(innermost.eq_2 _ _ _ _ other).trans code,?_⟩
    cases h
    by_cases all : who = "all" <;> simp [all]
  | case3 => cases h

theorem innermost_of_ofType (h : ofType t = .ok o) :
    ∃ who, innermost t = .ok who ∧ (o = .single "all" ↔ who = "all") := by
  unfold ofType at h
  split at h
  · exact innermost_of_below h
  next other =>
    obtain ⟨who,code,rfl⟩ := Outcome.map_eq_ok.1 h
    exact ⟨who,(innermost.eq_2 _ _ _ _ other).trans code,by simp⟩
  · cases h

end Ownership

namespace Ciphertext

/-- The type with a ciphertext in place of the innermost values, and without owners. -/
def sealed : Node → Node
  | .annotated _ (.mapping i key tag value) _ _ => publicType (.mapping i key (plainLabel tag) (sealed value))
  | _ => publicType type

/-- Everybody owns what is around the innermost values. -/
def ownersAgree : Node → Bool
  | .annotated i (.mapping j key tag value) written who =>
    !isPrivateType (.annotated i (.mapping j key tag value) written who) && ownersAgree value
  | t => !decide (Ownership.innermost t = .ok "all") || t.preorder.all isOpen

variable {t t' : Node} {who : String}

variable {i : Info} {m n owner root : Node} {written : Bool} {around : List Node} {p : Program}

theorem isPrivateType_of_innermost (code : owner.code {} = .ok who)
    (other : who ≠ "all") : isPrivateType (.annotated i t written owner) := by
  unfold isPrivateType
  split
  next eq =>
    injection eq with _ _ _ eq
    subst eq
    cases code
    exact absurd rfl other
  · rfl
  next void => exact absurd rfl (void _ _ _ _)

/-- The transformed type has a ciphertext unless `who` is everybody, and then exactly in place of the innermost
values. -/
def Fits (who : String) (t t' : Node) : Prop :=
  (who = "all" ↔ type ∉ t'.subtrees) ∧ (who ≠ "all" → t' = sealed t)

theorem fits_publicType_mapping {j : Info} {key label value value' : Node}
    (standing : type ∉ key.subtrees) (hl : label.role = .empty ∨ label.role = .label) :
    Fits who (.annotated i (.mapping j key label value) written owner)
      (publicType (.mapping j key (plainLabel label) value')) ↔ Fits who value value' := by
  unfold Fits
  rw [type_mem_publicType,type_mem_mapping hl,or_iff_right standing,sealed]
  simp [publicType]

theorem Standing.fits_iff (h : Standing q t) (annotated : t.role = .annotated) (owned : Ownership.innermost t = .ok who) :
    (∃ t', Runs (declaration t) q t' q ∧ Fits who t t') ↔ ownersAgree t := by
  fun_induction ownersAgree t with
  | case1 _ _ key _ _ _ _ ih =>
    have mapping := h.child h.child_annotated
    obtain ⟨hk,hl,hv⟩ := mapping.mapping_places
    have inside := ih (mapping.child mapping.child_mapping.2) hv owned
    have plain := type_notMem (mapping.child mapping.child_mapping.1).numbered
    rw [Bool.and_eq_true,Bool.not_eq_true',← inside]
    simp only [runs_annotated]
    split
    next hidden =>
      -- The whole mapping becomes a ciphertext.
      refine iff_of_false ?_ fun shown => by simp [hidden] at shown
      rintro ⟨t',⟨rfl,-⟩,all,other⟩
      have sealed := other fun everybody => all.1 everybody (type_mem_publicType.2 self_mem)
      simp [Ciphertext.sealed,publicType,type] at sealed
    next shown =>
      constructor
      · rintro ⟨_,⟨_,run,rfl⟩,fits⟩
        obtain ⟨_,_,value',first,second,rfl⟩ := (runs_mapping hl).1 run
        obtain ⟨rfl,rfl⟩ := (runs_typeName hk).1 first
        exact ⟨by simpa using shown,value',second,(fits_publicType_mapping plain hl).1 fits⟩
      · rintro ⟨-,value',second,fits⟩
        refine ⟨_,⟨_,?_,rfl⟩,(fits_publicType_mapping plain hl).2 fits⟩
        exact (runs_mapping hl).2
          ⟨key,q,value',(runs_typeName hk).2 ⟨rfl,rfl⟩,second,rfl⟩
  | case2 t other =>
    rw [Bool.or_eq_true,Bool.not_eq_true',decide_eq_false_iff_not,← imp_iff_not_or,all_eq_true]
    by_cases all : who = "all"
    · subst all
      simp only [Fits,true_iff,ne_eq,not_true_eq_false,false_implies,and_true,owned,forall_const]
      constructor
      · rintro ⟨t',run,clean⟩ m hm
        refine Bool.of_not_eq_false fun closed => ?_
        exact clean ((h.runs_declaration run).2.2 ⟨m,hm,closed⟩)
      · intro opened
        obtain ⟨t',run⟩ := h.exists_runs_declaration opened
        refine ⟨t',run,fun mem => ?_⟩
        obtain ⟨m,hm,closed⟩ := (h.runs_declaration run).2.1 mem
        simp [opened m hm] at closed
    · refine iff_of_true ⟨publicType type,?_,?_,fun _ => (sealed.eq_2 t other).symm⟩ fun everybody => ?_
      · unfold Ownership.innermost at owned
        split at owned
        next => exact (other _ _ _ _ _ _ _ rfl).elim
        next =>
          refine runs_annotated.2 ?_
          rw [isPrivateType_of_innermost owned all]
          exact ⟨rfl,rfl⟩
        next => cases owned
      · exact iff_of_false all fun clean => clean (type_mem_publicType.2 self_mem)
      · rw [owned] at everybody
        exact absurd (Except.ok.inj everybody) all

/-! ### State variables -/

def outerRoles : List Role :=
  [.state,.contract,.library,.interface,.source]

theorem outerRoles_of_below (r : Role) : ∀ c ∈ r.below, c ∈ outerRoles → r ∈ outerRoles := by
  cases r <;> decide

theorem outerRoles_of_path (proper : root.Proper) (path : Path root around m)
    (outer : m.role ∈ outerRoles) : ∀ a ∈ around, a.role ∈ outerRoles := by
  induction path with
  | root => simp
  | @child around n c path hc ih =>
    have known := proper n path.mem_subtrees
    have up := outerRoles_of_below n.role c.role ((isProper_iff.1 known).1 c (part_of_child hc)) outer
    exact forall_mem_cons.2 ⟨up,ih up⟩

theorem typeRoles_of_mem (proper : n.Proper) (named : n.role ∈ typeRoles) : ∀ m ∈ n.subtrees, m.role ∈ typeRoles := by
  induction n with
  | step _ ih =>
    intro m hm
    obtain rfl | ⟨c,hc,hm⟩ := mem_subtrees.1 hm
    · exact named
    · obtain ⟨own,below⟩ := proper_iff.1 proper
      exact ih c hc (below c hc) (below_typeRoles _ named _ ((isProper_iff.1 own).1 c hc)) m hm

theorem isOmitted_of_go {as : List Node} {f : Node} (void : ∀ a ∈ as, a.isFunction = false)
    (run : Runs (relatedFunction.go as) q f q') : f.isOmitted := by
  induction as with
  | nil => exact absurd run runs_throw
  | cons _ _ ih =>
    rw [forall_mem_cons] at void
    rw [relatedFunction.go,void.1] at run
    split at run
    · exact (runs_pure.1 run).1 ▸ rfl
    · exact ih void.2 run

theorem ancestors_extend {first : Nat} (h : Holds p first root)
    (ext : Extends p q) (path : Path root around m) (solid : m.isLeaflet = false) : q.ancestors m = around := by
  have length := path.length_le
  have depth := h.depth
  have le := ext.le
  refine chain_of_path (fun path solid => ?_) (fun hm solid => ?_) path solid (by omega)
  · obtain ⟨le,lt⟩ := h.range _ path.mem_subtrees solid
    rw [ext.parents _ (h.pos.trans_le le) lt]
    exact h.parent _ _ path solid
  · rw [ext.node (h.range _ hm solid).2,h.node_eq hm solid]

theorem isFunction_of_role (h : n.role ∈ typeRoles ∨ n.role ∈ outerRoles) : n.isFunction = false := by
  cases n <;> first | rfl | simp [Node.role,typeRoles,outerRoles] at h

theorem standing_of_placed {start : Program} {v : Node} (h : Placed start p root) (ext : Extends p q)
    (hv : v ∈ root.preorder) (state : v.role = .state) (ht : t ∈ v.children) (named : t.role ∈ typeRoles) :
    Standing q t := by
  obtain ⟨around,path,-⟩ := path_of_preorder .root hv
  rw [append_nil] at path
  have inner := path.child ht
  have proper : t.Proper := fun m hm => h.proper m (mem_trans hm inner.mem_subtrees)
  refine ⟨proper,named,fun m hm solid => ?_,fun m hm parameter f q' run => ?_⟩
  · have number := (h.holds.range m (mem_trans hm inner.mem_subtrees) solid).1
    exact h.holds.pos.trans_le number
  · obtain ⟨within,path',inside⟩ := path_of_preorder inner hm
    have solid := isLeaflet_of parameter fun _ => rfl
    have types := typeRoles_of_mem proper named
    have outer := outerRoles_of_path h.proper path (by simp [state,outerRoles])
    replace run := runs_get_bind.1 run
    refine isOmitted_of_go (fun a ha => isFunction_of_role ?_) run
    rw [ancestors_extend h.holds ext path' solid] at ha
    simp only [mem_cons,mem_append] at ha
    obtain rfl | ha | rfl | ha := ha
    · exact .inl (types a (t.preorder_sublist.subset hm))
    · exact .inl (types a (inside a ha))
    · exact .inr (by simp [state,outerRoles])
    · exact .inr (outer a ha)

end Ciphertext

theorem Placed.tree_eq {start p : Program} {root : Node} (h : Placed start p root) : p.tree = root := by
  have solid := isLeaflet_of (isSource_iff.2 h.source) fun _ => rfl
  rw [Program.tree,h.root_eq]
  exact h.holds.node_eq self_mem solid

/-- Makes a source the program, and finds the places of its nodes. -/
def Pass.loadPlaced (text : String) : Pass Unit := do
  load text
  linkParents (← get).tree

open Ciphertext

theorem owners_and_ciphertexts_agree_iff {text : String} {settings : Settings} {p q : Program} {i : Info} {t : Node}
    {keywords : List String} {name value override : Node} {o : Ownership}
    (run : Runs (loadPlaced text) { Globals.base with settings } () p) (later : Extends p q)
    (declared : .stateVariable i t keywords name value override ∈ p.tree.preorder) (owner : Ownership.ofType t = .ok o) :
    (∃ t', Runs (declaration t) q t' q ∧ (o = .single "all" ↔ type ∉ t'.subtrees) ∧
      (o ≠ .single "all" → t' = sealed t)) ↔ ownersAgree t := by
  obtain ⟨_,p₀,loaded,run⟩ := runs_bind.1 run
  replace run := runs_get_bind.1 run
  have placed := placed_of_runs (equipped_settings settings) loaded run
  obtain ⟨who,owned,everybody⟩ := Ownership.innermost_of_ofType owner
  have annotated : t.role = .annotated := by
    unfold Ownership.ofType at owner
    split at owner <;> first | rfl | cases owner
  rw [placed.tree_eq] at declared
  have child : t ∈ (Node.stateVariable i t keywords name value override).children := by
    refine List.mem_filter.2 ⟨by simp [visited],?_⟩
    rw [isOmitted_of_role (by simp [annotated])]
    rfl
  have standing := standing_of_placed placed later declared rfl child (by simp [annotated,typeRoles])
  rw [← standing.fits_iff annotated owned]
  simp only [Fits,ne_eq,everybody]

def sealedLedgers : String :=
  "pragma cloak ^0.2.0;\ncontract C \x7b\n    mapping(address => mapping(uint => uint)@tee) m;\n\x7d\n"

def Program.declares (p : Program) (o : Ownership) (agree : Bool) : Bool :=
  p.tree.preorder.any fun
    | .stateVariable _ t _ _ _ _ => decide (Ownership.ofType t = .ok o) && (ownersAgree t == agree)
    | _ => false

theorem sealedLedgers_disagree : ∃ p i t keywords name value override,
    Runs (loadPlaced sealedLedgers) { Globals.base with settings := {} } () p ∧
    .stateVariable i t keywords name value override ∈ p.tree.preorder ∧ Ownership.ofType t = .ok (.single "all") ∧
    ¬ ∃ t', Runs (declaration t) p t' p ∧ (Ownership.single "all" = .single "all" ↔ type ∉ t'.subtrees) ∧
      (Ownership.single "all" ≠ .single "all" → t' = sealed t) := by
  have chars : sealedLedgers = String.ofList _ := rfl
  have evaluated : (loadPlaced sealedLedgers).succeeds { Globals.base with settings := {} }
      (fun _ p => p.declares (.single "all") false) = true := by
    rw [loadPlaced,load_eq chars]
    decide +kernel
  obtain ⟨_,p,run,evaluated⟩ := of_succeeds evaluated
  obtain ⟨v,hv,evaluated⟩ := any_eq_true.1 evaluated
  split at evaluated
  next i t keywords name value override =>
    rw [Bool.and_eq_true,decide_eq_true_eq,beq_iff_eq] at evaluated
    refine ⟨p,i,t,keywords,name,value,override,run,hv,evaluated.1,?_⟩
    rw [owners_and_ciphertexts_agree_iff run ⟨Nat.le_refl _,fun _ _ => rfl,fun _ _ _ => rfl⟩ hv evaluated.1,evaluated.2]
    exact Bool.false_ne_true
  next => cases evaluated

end Confidential
