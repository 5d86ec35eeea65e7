import Confidential.Proofs.CallGraph

/-!
Final variables and the ways through a constructor without loops.
-/

namespace Confidential

open List Node Pass Finals
open Program (nameText finalsOf)

/-- What happens to the variable with a certain number. -/
inductive Event where
  | reads (k : Nat)
  | assigns (k : Nat)

namespace Event

variable {k : Nat} {s t : Bool} {u w : List Event}

/-- Is the variable assigned after the events, if `s` says whether it was so before? It must not be assigned again,
and not be read before. -/
def track (k : Nat) : Bool → List Event → Option Bool
  | s, [] => some s
  | s, .reads j :: w => if j = k ∧ s = false then none else track k s w
  | s, .assigns j :: w => if j = k then if s then none else track k true w else track k s w

theorem track_append (s : Bool) (u w : List Event) : track k s (u ++ w) = (track k s u).bind (track k · w) := by
  induction u generalizing s with
  | nil => rfl
  | cons e _ ih =>
    cases e <;> simp only [cons_append,track,ih]
    all_goals repeat' split
    all_goals rfl

theorem track_injective {s' : Bool} (h : track k s w = some t) (h' : track k s' w = some t) : s = s' := by
  induction w generalizing s s' with
  | nil => exact (Option.some.inj h).trans (Option.some.inj h').symm
  | cons e _ ih =>
    cases e with
    | reads =>
      simp only [track,Option.ite_none_left_eq_some] at h h'
      exact ih h.2 h'.2
    | assigns j =>
      by_cases same : j = k
      · simp only [track,same,if_true,Option.ite_none_left_eq_some,Bool.not_eq_true] at h h'
        rw [h.1,h'.1]
      · simp only [track,same,if_false] at h h'
        exact ih h h'

/-- The variable is assigned once, and all else that happens to it happens behind that. -/
def SetOnce (k : Nat) (w : List Event) : Prop :=
  ∃ before after, w = before ++ .assigns k :: after ∧ .reads k ∉ before ∧ .assigns k ∉ before ∧ .assigns k ∉ after

theorem track_true : track k true w = some t ↔ t ∧ .assigns k ∉ w := by
  induction w with
  | nil => simp [track,eq_comm]
  | cons e => cases e <;> grind [track]

theorem setOnce_iff : SetOnce k w ↔ track k false w = some true := by
  induction w with
  | nil => simp [SetOnce,track]
  | cons e w ih =>
    have skip (other : e ≠ .assigns k) (free : e ≠ .reads k) : SetOnce k (e :: w) ↔ SetOnce k w := by
      constructor
      · rintro ⟨before,after,eq,h⟩
        cases before with
        | nil => exact absurd (List.cons.inj eq).1 other
        | cons _ before => exact ⟨before,after,(List.cons.inj eq).2,by simp_all⟩
      · rintro ⟨before,after,rfl,h⟩
        exact ⟨e :: before,after,rfl,by simp_all [eq_comm]⟩
    cases e with
    | reads j =>
      by_cases same : j = k
      · subst same
        simp only [track,true_and,if_true,reduceCtorEq,iff_false]
        rintro ⟨before,after,eq,h⟩
        cases before <;> simp_all
      · rw [skip (by simp) (by simpa using same),ih,track,if_neg (by simp [same])]
    | assigns j =>
      by_cases same : j = k
      · subst same
        rw [track,if_pos rfl,if_neg (by simp),track_true,and_iff_right rfl]
        constructor
        · rintro ⟨before,after,eq,h⟩
          cases before <;> simp_all
        · exact fun h => ⟨[],w,rfl,by simp_all⟩
      · rw [skip (by simpa using same) (by simp),ih,track,if_neg same]

end Event

open Event

namespace Node

/-- Neither a function, a choice or an assignment, nor a word or an empty place. -/
def isInert : Node → Bool
  | .function .. | .assign .. | .branch .. | .plain _ | .omitted => false
  | _ => true

def isOperand (n : Node) : Bool :=
  n.preorder.all isInert

def isSimple : Node → Bool
  | .variableStatement .. | .variablesStatement .. | .expressionStatement .. | .require .. => true
  | _ => false

/-- Blocks and choices of declarations, expressions, requirements and assignments to names. -/
def isStraight (n : Node) : Bool :=
  match n with
  | .statements _ _ body => body.attach.all fun ⟨s,_⟩ => s.isStraight
  | .branch _ condition yes no => condition.isOperand && yes.isStraight && (no.isOmitted || no.isStraight)
  | .assign _ _ left right _ => left.isName && right.isOperand
  | n => n.isSimple && n.isOperand
termination_by sizeOf n

def bodyOf : Node → Node
  | .function _ _ _ _ _ body _ => body
  | _ => .omitted

def constructorBodies (c : Node) : List Node :=
  (c.constructors.map bodyOf).filter (!·.isOmitted)

end Node

namespace Program

variable (p : Program)

def referent (n : Node) : Node :=
  (p.target n).toOption.getD .omitted

def occurrences (n : Node) : List Event :=
  (n.preorder.filter isName).map fun m => .reads (p.referent m).id

/-- A name in the tree is the label of a mapping's key, or another thing that cannot be looked up. -/
def HasLabel (n : Node) : Prop :=
  ∃ m ∈ n.preorder, m.isName = true ∧ (p.referent m).isHashable = false

mutual

/-- A way through a statement: what happens on it, for one choice in every branch. -/
inductive Way : Node → List Event → Prop
  | block {i : Info} {kind : ListKind} {body : List Node} {w : List Event} (inner : Ways body w) :
    Way (.statements i kind body) w
  | yes {i : Info} {condition yes no : Node} {w : List Event} (inner : Way yes w) :
    Way (.branch i condition yes no) (p.occurrences condition ++ w)
  | no {i : Info} {condition yes no : Node} {w : List Event} (inner : Way no w) (there : no.isOmitted = false) :
    Way (.branch i condition yes no) (p.occurrences condition ++ w)
  | skip {i : Info} {condition yes : Node} : Way (.branch i condition yes .omitted) (p.occurrences condition ++ [])
  | assign {i : Info} {toCircuit : Bool} {left right : Node} {op : String} :
    Way (.assign i toCircuit left right op) (p.occurrences right ++ [.assigns (p.referent left).id])
  | simple {n : Node} (kind : n.isSimple = true) : Way n (p.occurrences n)

/-- A way through statements that track one another. -/
inductive Ways : List Node → List Event → Prop
  | nil : Ways [] []
  | cons {n : Node} {ns : List Node} {u w : List Event} (first : Way n u) (rest : Ways ns w) : Ways (n :: ns) (u ++ w)

end

end Program

namespace Finals

def table (vs : List Nat) (a : Nat → Bool) : List (Nat × Bool) :=
  vs.map fun k => (k,a k)

variable {vs : List Nat} {a b : Nat → Bool}

theorem lookup_table (k : Nat) : (table vs a).lookup k = if k ∈ vs then some (a k) else none := by
  induction vs with
  | nil => rfl
  | cons j _ ih =>
    rw [table,map_cons,lookup_cons]
    by_cases same : k = j
    · simp [same]
    · simp only [beq_eq_false_iff_ne.2 same,mem_cons,same,false_or]
      exact ih

theorem find?_unset (ns : List Node) : ns.find? (fun v => (table (ns.map Node.id) a).lookup v.id == some false) =
    ns.find? (!a ·.id) := by
  rw [← head?_filter,← head?_filter]
  congr 1
  refine filter_congr fun v hv => ?_
  rw [lookup_table,if_pos (mem_map_of_mem hv)]
  cases a v.id <;> rfl

theorem mark_table (k : Nat) : mark k (table vs a) = table vs (Function.update a k true) := by
  rw [mark,table,map_map]
  refine map_congr_left fun j _ => ?_
  by_cases same : j = k <;> simp [same]

theorem lookup_eq (pos : 0 ∉ vs) (d : Node) : lookup (table vs a) d =
    if d.isHashable then .ok (if d.id ∈ vs then some (a d.id) else none) else .error .misused := by
  rw [lookup,lookup_table]
  cases d <;> first | rfl | simp [isHashable,isOmitted,Node.id,Node.info,pos]

theorem agree_table : agree (table vs a) (table vs b) ↔ ∀ k ∈ vs, a k = b k := by
  simp only [agree,table,all_map,all_eq_true,Function.comp_apply,beq_iff_eq]
  refine forall₂_congr fun k hk => ?_
  rw [← table,lookup_table,if_pos hk,Option.some_inj,eq_comm]

def Leads (vs : List Nat) (a : Nat → Bool) (ways : List Event → Prop) (b : Nat → Bool) : Prop :=
  ∀ w, ways w → ∀ k ∈ vs, track k (a k) w = some (b k)

/-- What the check may answer for a part of a constructor, from the ways through it. -/
inductive Judged (vs : List Nat) (a : Nat → Bool) (ways : List Event → Prop) (labels : Prop) : Outcome Assigned → Prop
  | accepted (b : Nat → Bool) (clear : ¬ labels) (all : Leads vs a ways b) : Judged vs a ways labels (.ok (some (table vs b)))
  | refused (message : String) (apart : ¬ ∃ b, Leads vs a ways b) : Judged vs a ways labels (.error (.illTyped message))
  | stuck (label : labels) : Judged vs a ways labels (.error .misused)

namespace Judged

variable {ways ways' : List Event → Prop} {labels labels' : Prop} {r : Outcome Assigned}

theorem congr (h : Judged vs a ways labels r) (same : ∀ w, ways w ↔ ways' w) (same' : labels ↔ labels') :
    Judged vs a ways' labels' r := by
  obtain rfl : ways = ways' := funext fun w => propext (same w)
  obtain rfl : labels = labels' := propext same'
  exact h

theorem nil : Judged vs a (· = []) False (.ok (some (table vs a))) :=
  .accepted a id fun _ hw k _ => by rw [hw]; rfl

/-- Two parts after each other: every way through the first is continued by every way through the second. -/
theorem bind {f : Assigned → Outcome Assigned} (h : Judged vs a ways labels r) (way : ∃ w, ways w) (way' : ∃ w, ways' w)
    (next : ∀ b, Judged vs b ways' labels' (f (some (table vs b)))) :
    Judged vs a (fun w => ∃ u v, w = u ++ v ∧ ways u ∧ ways' v) (labels ∨ labels') (r >>= f) := by
  cases h with
  | refused message apart =>
    refine .refused message fun ⟨b,all⟩ => apart ?_
    obtain ⟨v,hv⟩ := way'
    obtain ⟨u,hu⟩ := way
    -- A way behind the first part tells in which state that part was left.
    have split {u : List Event} (hu : ways u) {k : Nat} (hk : k ∈ vs) :
        ∃ t, track k (a k) u = some t ∧ track k t v = some (b k) := by
      have whole := all (u ++ v) ⟨u,v,rfl,hu,hv⟩ k hk
      rwa [track_append,Option.bind_eq_some_iff] at whole
    refine ⟨fun k => (track k (a k) u).getD false,fun u' hu' k hk => ?_⟩
    obtain ⟨t,first,last⟩ := split hu hk
    obtain ⟨t',first',last'⟩ := split hu' hk
    dsimp only
    rw [first',first,track_injective last last',Option.getD_some]
  | stuck label => exact .stuck (.inl label)
  | accepted b clear all =>
    have continued {c : Nat → Bool} (whole : Leads vs a (fun w => ∃ u v, w = u ++ v ∧ ways u ∧ ways' v) c) :
        Leads vs b ways' c := by
      intro v hv k hk
      obtain ⟨u,hu⟩ := way
      have := whole (u ++ v) ⟨u,v,rfl,hu,hv⟩ k hk
      rwa [track_append,all u hu k hk] at this
    change Judged _ _ _ _ (f (some (table vs b)))
    generalize made : f (some (table vs b)) = r
    obtain ⟨c,clear',all'⟩ | ⟨message,apart⟩ | label := made ▸ next b
    · refine .accepted c (not_or.2 ⟨clear,clear'⟩) ?_
      rintro _ ⟨u,v,rfl,hu,hv⟩ k hk
      rw [track_append,all u hu k hk]
      exact all' v hv k hk
    · exact .refused message fun ⟨c,whole⟩ => apart ⟨c,continued whole⟩
    · exact .stuck (.inr label)

theorem join {r' : Outcome Assigned} {message : Outcome String} (h : Judged vs a ways labels r)
    (h' : Judged vs a ways' labels' r') (way : ∃ w, ways w) (way' : ∃ w, ways' w) (told : ∃ text, message = .ok text) :
    Judged vs a (fun w => ways w ∨ ways' w) (labels ∨ labels') (do
      let yes ← r
      let no ← r'
      if agree (yes.getD []) (no.getD []) then return no
      .error (.illTyped (← message))) := by
  obtain ⟨text,rfl⟩ := told
  cases h with
  | refused message apart => exact .refused message fun ⟨c,all⟩ => apart ⟨c,fun w hw => all w (.inl hw)⟩
  | stuck label => exact .stuck (.inl label)
  | accepted b clear all =>
    cases h' with
    | refused message apart => exact .refused message fun ⟨c,all⟩ => apart ⟨c,fun w hw => all w (.inr hw)⟩
    | stuck label => exact .stuck (.inr label)
    | accepted b' clear' all' =>
      change Judged _ _ _ _ (if agree (table vs b) (table vs b') then _ else _)
      split
      next same =>
        refine .accepted b' (not_or.2 ⟨clear,clear'⟩) fun w hw k hk => ?_
        obtain hw | hw := hw
        · rw [all w hw k hk,agree_table.1 same k hk]
        · exact all' w hw k hk
      next other =>
        refine .refused text fun ⟨c,whole⟩ => other (agree_table.2 fun k hk => ?_)
        obtain ⟨w,hw⟩ := way
        obtain ⟨w',hw'⟩ := way'
        have yes := (all w hw k hk).symm.trans (whole w (.inl hw) k hk)
        have no := (all' w' hw' k hk).symm.trans (whole w' (.inr hw') k hk)
        rw [Option.some.inj yes,Option.some.inj no]

end Judged

end Finals

/-- The events of several parts, one part after the other. -/
def Along (ways : Node → List Event → Prop) : List Node → List Event → Prop
  | [], w => w = []
  | n :: ns, w => ∃ u v, w = u ++ v ∧ ways n u ∧ Along ways ns v

variable {around ns : List Node} {c n root : Node} {p : Program}

variable {w : List Event}

theorem along_flatMap {g : Node → List Event} :
    Along (fun n w => w = g n) ns w ↔ w = ns.flatMap g := by
  induction ns generalizing w with
  | nil => exact Iff.rfl
  | cons _ _ ih => simp [Along,ih]

theorem along_ways : Along p.Way ns w ↔ p.Ways ns w := by
  induction ns generalizing w with
  | nil => exact ⟨fun h => h ▸ .nil,fun h => by cases h; rfl⟩
  | cons _ _ ih =>
    constructor
    · rintro ⟨u,v,rfl,first,rest⟩
      exact .cons first (ih.1 rest)
    · rintro (_ | ⟨first,rest⟩)
      exact ⟨_,_,rfl,first,ih.2 rest⟩

theorem exists_along {ways : Node → List Event → Prop} (way : ∀ n ∈ ns, ∃ w, ways n w) : ∃ w, Along ways ns w := by
  induction ns with
  | nil => exact ⟨[],rfl⟩
  | cons _ _ ih =>
    rw [forall_mem_cons] at way
    obtain ⟨u,hu⟩ := way.1
    obtain ⟨v,hv⟩ := ih way.2
    exact ⟨u ++ v,u,v,rfl,hu,hv⟩

theorem Finals.Judged.foldlM {vs : List Nat} (ways : Node → List Event → Prop) (labels : Node → Prop)
    {f : Assigned → Node → Outcome Assigned}
    (each : ∀ n ∈ ns, ∀ a, Judged vs a (ways n) (labels n) (f (some (table vs a)) n)) (way : ∀ n ∈ ns, ∃ w, ways n w)
    (a : Nat → Bool) : Judged vs a (Along ways ns) (∃ n ∈ ns, labels n) (ns.foldlM f (some (table vs a))) := by
  induction ns generalizing a with
  | nil => exact Judged.nil.congr (fun _ => Iff.rfl) (by simp)
  | cons _ _ ih =>
    rw [forall_mem_cons] at each way
    rw [foldlM_cons]
    exact ((each.1 a).bind way.1 (exists_along way.2) fun b => ih each.2 way.2 b).congr (fun _ => Iff.rfl) (by simp)

theorem Node.isOperand_child (h : n.isOperand) (hc : c ∈ n.children) : c.isOperand := by
  refine all_eq_true.2 fun m hm => all_eq_true.1 h m ?_
  rw [preorder_eq]
  exact .tail _ (mem_flatMap.2 ⟨c,hc,hm⟩)

theorem Node.isInert_of_isOperand (h : n.isOperand) : n.isInert :=
  all_eq_true.1 h n n.self_mem_preorder

theorem Node.isStraight_cases (h : n.isStraight) : (∃ i kind body, n = .statements i kind body ∧ ∀ s ∈ body, s.isStraight) ∨
    (∃ i condition yes no, n = .branch i condition yes no ∧ condition.isOperand ∧ yes.isStraight ∧
      (no = .omitted ∨ no.isOmitted = false ∧ no.isStraight)) ∨
    (∃ i toCircuit j b right op, n = .assign i toCircuit (.name j b) right op ∧ right.isOperand) ∨
    n.isSimple ∧ n.isOperand := by
  cases n with
  | statements i kind body =>
    rw [isStraight] at h
    exact .inl ⟨i,kind,body,rfl,by simpa using h⟩
  | branch i condition yes no =>
    rw [isStraight,Bool.and_eq_true,Bool.and_eq_true] at h
    refine .inr (.inl ⟨i,condition,yes,no,rfl,h.1.1,h.1.2,?_⟩)
    cases no <;> simp_all [isOmitted]
  | assign i toCircuit left right op =>
    rw [isStraight,Bool.and_eq_true] at h
    cases left with
    | name j b => exact .inr (.inr (.inl ⟨i,toCircuit,j,b,right,op,rfl,h.2⟩))
    | _ => cases h.1
  | _ => simp_all [isStraight,isSimple]

theorem Node.isStatement_of_straight (h : n.isStraight) : n.isStatement := by
  obtain ⟨_,_,_,rfl,-⟩ | ⟨_,_,_,_,rfl,-⟩ | ⟨_,_,_,_,_,_,rfl,-⟩ | ⟨simple,-⟩ := isStraight_cases h
  · rfl
  · rfl
  · rfl
  · cases n <;> first | rfl | cases simple

theorem Node.isOmitted_of_straight (h : n.isStraight) : n.isOmitted = false :=
  isOmitted_of (isStatement_of_straight h) rfl

theorem Program.exists_way (p : Program) (straight : n.isStraight) : ∃ w, p.Way n w := by
  induction n with
  | step _ ih =>
    obtain ⟨i,kind,body,rfl,each⟩ | ⟨i,_,yes,_,rfl,-,hy,-⟩ | ⟨_,_,_,_,_,_,rfl,-⟩ | ⟨simple,-⟩ :=
      isStraight_cases straight
    · obtain ⟨w,hw⟩ := exists_along fun s hs => ih s hs (each s hs)
      exact ⟨w,.block (along_ways.1 hw)⟩
    · obtain ⟨w,hw⟩ := ih yes (by simp [parts]) hy
      exact ⟨_,.yes hw⟩
    · exact ⟨_,.assign⟩
    · exact ⟨_,.simple simple⟩

theorem Program.isAssigned_child (inert : n.isInert)
    (free : isAssigned n around = false) : isAssigned c (n :: around) = false := by
  cases n <;> simp_all [isAssigned,isInert]

namespace Program

variable {p : Program}

variable {i j : Info} {n : Node} {x : String}

variable {w : List Event}

theorem way_block {kind : ListKind} {body : List Node} :
    p.Way (.statements i kind body) w ↔ Along p.Way body w := by
  rw [along_ways]
  refine ⟨fun h => ?_,.block⟩
  cases h with
  | block inner => exact inner
  | simple kind => cases kind

theorem way_branch {condition yes no : Node} : p.Way (.branch i condition yes no) w ↔
    ∃ u v, w = u ++ v ∧ u = p.occurrences condition ∧
      (p.Way yes v ∨ if no.isOmitted = true then v = [] else p.Way no v) := by
  constructor
  · intro h
    cases h with
    | yes inner => exact ⟨_,_,rfl,rfl,.inl inner⟩
    | no _ there => exact ⟨_,_,rfl,rfl,.inr (by rwa [there,if_neg (by simp)])⟩
    | skip => exact ⟨_,_,rfl,rfl,.inr rfl⟩
    | simple kind => cases kind
  · rintro ⟨_,v,rfl,rfl,inner | inner⟩
    · exact .yes inner
    · cases there : no.isOmitted with
      | true =>
        rw [there,if_pos rfl] at inner
        cases no <;> first | exact inner ▸ .skip | cases there
      | false =>
        rw [there,if_neg (by simp)] at inner
        exact .no inner there

theorem way_assign {toCircuit : Bool} {left right : Node} {op : String} : p.Way (.assign i toCircuit left right op) w ↔
      ∃ u v, w = u ++ v ∧ u = p.occurrences right ∧ v = [.assigns (p.referent left).id] := by
  constructor
  · intro h
    cases h with
    | assign => exact ⟨_,_,rfl,rfl,rfl⟩
    | simple kind => cases kind
  · rintro ⟨_,_,rfl,rfl,rfl⟩
    exact .assign

theorem way_simple (kind : n.isSimple) : p.Way n w ↔ w = p.occurrences n := by
  refine ⟨fun h => ?_,fun h => h ▸ .simple kind⟩
  cases h with
  | simple => rfl
  | _ => cases kind

theorem followFinals_inert {s : Assigned} (inert : n.isInert) (other : n.isName = false) :
    p.followFinals s n = (do n.ensureWalkable; n.children.foldlM (fun s c => p.followFinals s c) s) := by
  rw [followFinals]
  · simp
  · rintro _ _ _ _ _ _ _ rfl
    cases inert
  · rintro _ _ _ _ _ rfl
    cases inert
  · rintro _ _ _ _ rfl
    cases inert
  · rintro _ _ rfl
    cases other

theorem target_name (i : Info) (a : Node) : p.target (.name i a) = .ok (p.referent (.name i a)) := by
  unfold referent target
  cases p.links.targets[(Node.name i a).id]? <;> rfl

theorem occurrences_eq (other : n.isName = false) : p.occurrences n = n.children.flatMap p.occurrences := by
  rw [occurrences,preorder_eq,filter_cons_of_neg (by simp [other]),filter_flatMap,map_flatMap]
  rfl

theorem hasLabel_iff (other : n.isName = false) : p.HasLabel n ↔ ∃ c ∈ n.children, p.HasLabel c := by
  simp only [HasLabel,preorder_eq n,mem_cons,mem_flatMap]
  grind

theorem preorder_name : (Node.name i (.identifier j x)).preorder = [.name i (.identifier j x),.identifier j x] := by
  simp [preorder_eq,children,visited,parts,isOmitted]

theorem occurrences_name :
    p.occurrences (.name i (.identifier j x)) = [.reads (p.referent (.name i (.identifier j x))).id] := by
  rw [occurrences,preorder_name]
  rfl

theorem hasLabel_name : p.HasLabel (.name i (.identifier j x)) ↔
    (p.referent (.name i (.identifier j x))).isHashable = false := by
  simp [HasLabel,preorder_name,isName]

end Program

variable {first : Nat}

theorem Node.label_of_name {b : Node} {i : Info} (path : Path root around (.name i b))
    (proper : root.Proper) : ∃ j x, b = .identifier j x := by
  have label : b.role = .label := by simpa [keepsPlaces] using (isProper_iff.1 (path.proper proper)).2.1
  cases b with
  | declaration _ kind | statements _ kind => cases kind <;> cases label
  | identifier j x => exact ⟨j,x,rfl⟩
  | _ => cases label

structure Hosts (p : Program) (root c f : Node) : Prop where
  linked : ∃ first, LinkedSource p first root
  walkable : ∀ m ∈ root.preorder, m.lacksParameters = false
  path : Path root [c,root] f
  contract : c.isContract = true
  function : f.isFunction = true
  contractName : ∃ name, nameText c = .ok name
  functionName : ∃ name, nameText f = .ok name

theorem Node.Path.above (path : Path root (n :: around) c) : Path root around n := by
  cases path with
  | child outer => exact outer

theorem Node.isExpression_of_isStatement (h : n.isStatement) : n.isExpression = false := by
  cases n with
  | general _ category => cases category <;> first | rfl | cases h
  | _ => first | rfl | cases h

theorem LinkedSource.source_eq (h : LinkedSource p first root)
    (path : Path root [root] c) (contract : c.isContract) : p.closest? (·.isSource) c = some root := by
  rw [Program.closest?,h.holds.ancestors_eq path (isLeaflet_of contract fun _ => rfl),
    find?_cons_of_neg,find?_cons_of_pos (isSource_iff.2 h.source)]
  cases c <;> first | cases contract; done | simp [isSource]

theorem LinkedSource.exists_report {v : Node} (h : LinkedSource p first root)
    (path : Path root [c,root] v) (contract : c.isContract) (name : ∃ name, nameText c = .ok name)
    (kind : v.isStateVariable) (message : String) : ∃ text, p.report v message = .ok text := by
  obtain ⟨name,named⟩ := name
  have around : p.closest? (·.isContract) v = some c := by
    rw [Program.closest?,h.holds.ancestors_eq path (isLeaflet_of kind fun _ => rfl),find?_cons_of_neg,find?_cons_of_pos contract]
    cases v <;> first | cases kind; done | simp [isContract]
  obtain ⟨text,shown⟩ : ∃ text, Report.location v.line v.column p.lines (some name) none none = .ok text :=
    Report.exists_location (by simp) (by simp)
  have own : (if v.isExpression then p.statement v else if v.isStatement then .ok v else .ok .omitted) = .ok .omitted := by
    cases v <;> first | rfl | cases kind
  have outside : (if !omitted.isOmitted then p.function omitted else if v.isFunction then .ok v else .ok .omitted) =
      .ok .omitted := by
    cases v <;> first | rfl | cases kind
  have titledContract : (some c).mapM nameText = .ok (some name) := by
    rw [Option.mapM_some,named]
    rfl
  exact ⟨_,(Scoped.report_eq own outside around (h.source_eq path.above contract) h.root_eq.symm
    titledContract rfl message).trans (by rw [isOmitted,if_pos rfl,shown]; rfl)⟩

namespace Hosts

variable {p : Program} {root c f : Node} (h : Hosts p root c f)
include h

variable {inner : List Node} {n : Node}

theorem exists_report (path : Path root (inner ++ [f,c,root]) n) (plain : ∀ x ∈ inner, x.isFunction = false)
    (kind : n.isStatement ∨ n.isExpression ∧ ∃ s ∈ inner, s.isStatement) (message : String) :
    ∃ text, p.report n message = .ok text := by
  obtain ⟨first,linked⟩ := h.linked
  obtain ⟨name,named⟩ := h.contractName
  obtain ⟨name',named'⟩ := h.functionName
  obtain ⟨s,inner',statement,path',plain',own⟩ : ∃ s inner', s.isStatement ∧
      Path root (inner' ++ [f,c,root]) s ∧ (∀ x ∈ inner', x.isFunction = false) ∧
      (if n.isExpression then p.statement n else if n.isStatement then .ok n else .ok .omitted) = .ok s := by
    obtain statement | ⟨expression,t,ht,statement⟩ := kind
    · refine ⟨n,inner,statement,path,plain,?_⟩
      rw [isExpression_of_isStatement statement,if_neg (by simp),if_pos statement]
    · obtain ⟨s,found⟩ := Option.isSome_iff_exists.1 (find?_isSome.2 ⟨t,ht,statement⟩)
      obtain ⟨before,after,rfl⟩ := append_of_mem (mem_of_find?_eq_some found)
      have path' : Path root (before ++ s :: (after ++ [f,c,root])) n := by simpa using path
      have statement : s.isStatement := find?_some found
      refine ⟨s,after,statement,path'.suffix,fun x hx => plain x (by simp [hx]),?_⟩
      rw [if_pos expression,Program.statement,linked.holds.statement _ n path expression
        (isLeaflet_of expression fun _ => rfl),find?_append,found,Option.some_or,Option.map_some]
      exact congrArg Except.ok (linked.holds.node_eq path'.suffix.mem_subtrees (isLeaflet_of statement fun _ => rfl))
  have solid := isOmitted_of statement rfl
  have solid' : f.isOmitted = false ∧ f.isContract = false ∧ f.isLeaflet = false := by
    have kind := h.function
    cases f <;> first | exact ⟨rfl,rfl,rfl⟩ | cases kind
  have around : p.closest? (·.isContract) (if f.isOmitted then n else f) = some c := by
    rw [solid'.1,if_neg (by simp),Program.closest?,linked.holds.ancestors_eq h.path solid'.2.2,
      find?_cons_of_neg (by simp [solid'.2.1]),find?_cons_of_pos h.contract]
  obtain ⟨text,shown⟩ : ∃ text, Report.location n.line n.column p.lines (some name) (some name') (some s.line) = .ok text := by
    refine Report.exists_location ?_ (by simp)
    rintro first ⟨⟩
    exact Info.le_line (isProper_iff.1 (path'.proper linked.proper)).2.2
  have inside : (if !s.isOmitted then p.function s else if n.isFunction then .ok n else .ok .omitted) = .ok f := by
    rw [solid,Bool.not_false,if_pos rfl]
    exact linked.function_eq path' h.function plain' statement
  have titled : (if f.isOmitted then pure none else some <$> nameText f) = (.ok (some name') : Outcome _) := by
    rw [solid'.1,if_neg (by simp),named']
    rfl
  have titledContract : (some c).mapM nameText = .ok (some name) := by
    rw [Option.mapM_some,named]
    rfl
  exact ⟨_,(Scoped.report_eq own inside around (linked.source_eq h.path.above h.contract) linked.root_eq.symm
    titledContract titled message).trans (by rw [solid,if_neg (by simp),shown]; rfl)⟩

variable {vs : List Nat} (pos : 0 ∉ vs)

variable {i j : Info}
include pos

theorem judged_name {x : String} {a : Nat → Bool} (path : Path root (inner ++ [f,c,root]) (.name i (.identifier j x)))
    (free : Program.isAssigned (.name i (.identifier j x)) (inner ++ [f,c,root]) = false)
    (plain : ∀ x ∈ inner, x.isFunction = false) (within : ∃ s ∈ inner, s.isStatement) :
    Judged vs a (· = p.occurrences (.name i (.identifier j x))) (p.HasLabel (.name i (.identifier j x)))
      (p.followFinals (some (table vs a)) (.name i (.identifier j x))) := by
  obtain ⟨first,linked⟩ := h.linked
  have right : p.isLeftValue (.name i (.identifier j x)) = false := by
    rw [Program.isLeftValue,linked.holds.ancestors_eq path rfl,free]
  rw [Program.followFinals,Program.occurrences_name,Program.hasLabel_name]
  simp only [right,Bool.false_eq_true,if_false,Program.target_name]
  generalize hd : p.referent (.name i (.identifier j x)) = d
  simp only [bind,Except.bind,lookup_eq pos]
  cases hashable : d.isHashable with
  | false => exact .stuck rfl
  | true =>
    simp only [if_true]
    split
    next unset =>
      obtain ⟨mem,unset⟩ : d.id ∈ vs ∧ a d.id = false := by grind
      obtain ⟨text,code⟩ : ∃ text, p.code (.name i (.identifier j x)) = .ok text := ⟨x,rfl⟩
      obtain ⟨report,told⟩ := h.exists_report path plain (.inr ⟨rfl,within⟩)
        (text ++ " is reading \"final\" state variable before writing it")
      simp only [code,told]
      refine .refused report ?_
      rintro ⟨b,all⟩
      have := all _ rfl d.id mem
      simp [unset,track] at this
    next known =>
      refine .accepted a (by simp) ?_
      rintro w rfl k hk
      by_cases same : d.id = k
      · subst same
        have : a d.id := by
          cases value : a d.id with
          | true => rfl
          | false => exact absurd (by simp [hk,value]) known
        simp [track,this]
      · simp [track,same]

theorem judged_operand (path : Path root (inner ++ [f,c,root]) n)
    (calm : n.isOperand) (free : Program.isAssigned n (inner ++ [f,c,root]) = false)
    (plain : ∀ x ∈ inner, x.isFunction = false) (within : n.isStatement ∨ ∃ s ∈ inner, s.isStatement)
    (a : Nat → Bool) : Judged vs a (· = p.occurrences n) (p.HasLabel n) (p.followFinals (some (table vs a)) n) := by
  induction n generalizing inner a with
  | step n ih =>
    have inert := isInert_of_isOperand calm
    cases name : n.isName with
    | true =>
      obtain ⟨first,linked⟩ := h.linked
      cases n with
      | name =>
        obtain ⟨j,x,rfl⟩ := label_of_name path linked.proper
        exact h.judged_name pos path free plain (within.resolve_left (by simp [isStatement]))
      | _ => cases name
    | false =>
      have walkable : n.ensureWalkable = .ok () := by
        rw [ensureWalkable,h.walkable n path.mem_preorder]
        cases n <;> first | rfl | cases inert
      have outside : n.isFunction = false := by
        cases n <;> first | rfl | cases inert
      rw [Program.followFinals_inert inert name,walkable]
      refine (Judged.foldlM (fun c w => w = p.occurrences c) p.HasLabel (fun m hm a => ?_) (fun m _ => ⟨_,rfl⟩) a).congr
        (fun w => ?_) (Program.hasLabel_iff name).symm
      · have path' : Path root (n :: inner ++ [f,c,root]) m := path.child hm
        refine ih m (part_of_child hm) path' (isOperand_child calm hm)
          (Program.isAssigned_child inert free) (forall_mem_cons.2 ⟨outside,plain⟩) (.inr ?_) a
        obtain own | ⟨s,hs,statement⟩ := within
        · exact ⟨n,mem_cons_self,own⟩
        · exact ⟨s,.tail _ hs,statement⟩
      · rw [along_flatMap,Program.occurrences_eq name]

theorem judged_assignment {toCircuit : Bool} {b right : Node} {op : String}
    (path : Path root (inner ++ [f,c,root]) (.assign i toCircuit (.name j b) right op))
    (plain : ∀ x ∈ inner, x.isFunction = false) (a : Nat → Bool) :
    Judged vs a (· = [.assigns (p.referent (.name j b)).id]) ((p.referent (.name j b)).isHashable = false) (do
      let target ← p.target (.name j b)
      match ← lookup (table vs a) target with
      | none => return some (table vs a)
      | some true => .error (.illTyped (← p.report (.assign i toCircuit (.name j b) right op) "Tried to reassign final variable"))
      | some false => return some (mark target.id (table vs a))) := by
  rw [Program.target_name]
  generalize p.referent (.name j b) = d
  change Judged _ _ _ _ (lookup (table vs a) d >>= _)
  rw [lookup_eq pos]
  cases hashable : d.isHashable with
  | false => exact .stuck rfl
  | true =>
    have clear : ¬ (true = false) := by simp
    by_cases mem : d.id ∈ vs
    · rw [if_pos rfl,if_pos mem]
      cases value : a d.id with
      | true =>
        obtain ⟨text,told⟩ := h.exists_report path plain (.inl rfl) "Tried to reassign final variable"
        simp only [bind,Except.bind,told]
        refine .refused text fun ⟨b,all⟩ => ?_
        have := all _ rfl d.id mem
        simp [track,value] at this
      | false =>
        change Judged _ _ _ _ (.ok (some (mark d.id (table vs a))))
        rw [mark_table]
        refine .accepted _ clear ?_
        rintro w rfl k hk
        by_cases same : d.id = k
        · subst same
          simp [track,value]
        · simp [track,same,Function.update_of_ne (Ne.symm same)]
    · rw [if_pos rfl,if_neg mem]
      refine .accepted a clear ?_
      rintro w rfl k hk
      have other : d.id ≠ k := fun same => mem (same ▸ hk)
      simp [track,other]

theorem judged_statement (path : Path root (inner ++ [f,c,root]) n)
    (straight : n.isStraight) (free : Program.isAssigned n (inner ++ [f,c,root]) = false)
    (plain : ∀ x ∈ inner, x.isFunction = false) (a : Nat → Bool) :
    Judged vs a (p.Way n) (p.HasLabel n) (p.followFinals (some (table vs a)) n) := by
  obtain ⟨first,linked⟩ := h.linked
  induction n generalizing inner a with
  | step n ih =>
    have child {m : Node} (hm : m ∈ n.children) : Path root (n :: inner ++ [f,c,root]) m := path.child hm
    have outside : ∀ x ∈ n :: inner, x.isFunction = false := by
      refine forall_mem_cons.2 ⟨?_,plain⟩
      have statement := isStatement_of_straight straight
      cases n <;> first | rfl | cases statement
    have within : ∃ s ∈ n :: inner, s.isStatement :=
      ⟨n,mem_cons_self,isStatement_of_straight straight⟩
    obtain ⟨i,kind,body,rfl,each⟩ | ⟨i,condition,yes,no,rfl,calm,hy,hn⟩ | ⟨i,toCircuit,j,b,right,op,rfl,calm⟩ |
      ⟨simple,calm⟩ := isStraight_cases straight
    · have children : (Node.statements i kind body).children = body :=
        filter_eq_self.2 fun s hs => by simp [isOmitted_of_straight (each s hs)]
      rw [Program.followFinals_inert rfl rfl,children]
      refine (Judged.foldlM p.Way p.HasLabel (fun s hs a => ?_) (fun s hs => p.exists_way (each s hs)) a).congr
        (fun w => Program.way_block.symm) ?_
      · exact ih s hs (child (by rwa [children])) (each s hs) rfl outside a
      · rw [Program.hasLabel_iff rfl,children]
    · have solid := isOmitted_of (isInert_of_isOperand calm) rfl
      have hc : condition ∈ (Node.branch i condition yes no).children := mem_filter.2 ⟨by simp [visited,parts],by simp [solid]⟩
      have hy' : yes ∈ (Node.branch i condition yes no).children :=
        mem_filter.2 ⟨by simp [visited,parts],by simp [isOmitted_of_straight hy]⟩
      have first := h.judged_operand pos (child hc) calm rfl outside (.inr within)
      have second (a : Nat → Bool) := ih yes (by simp [parts]) (child hy') hy rfl outside a
      have told := h.exists_report path plain (.inl rfl) "Final value is not assigned in both branches"
      rw [Program.followFinals]
      obtain rfl | ⟨there,hn⟩ := hn
      · refine ((first a).bind ⟨_,rfl⟩ ⟨_,.inr rfl⟩ fun b =>
          (second b).join Judged.nil (p.exists_way hy) ⟨_,rfl⟩ told).congr (fun w => Program.way_branch.symm) ?_
        rw [Program.hasLabel_iff (n := .branch i condition yes .omitted) rfl]
        simp [children,visited,parts,solid,isOmitted_of_straight hy,show omitted.isOmitted = true from rfl]
      · have hn' : no ∈ (Node.branch i condition yes no).children :=
          mem_filter.2 ⟨by simp [visited,parts],by simp [there]⟩
        have third (a : Nat → Bool) := ih no (by simp [parts]) (child hn') hn rfl outside a
        simp only [there,Bool.false_eq_true,if_false]
        refine ((first a).bind ⟨_,rfl⟩ ((p.exists_way hy).imp fun _ => .inl) fun b =>
          (second b).join (third b) (p.exists_way hy) (p.exists_way hn) told).congr (fun w => ?_) ?_
        · rw [Program.way_branch]
          simp [there]
        · rw [Program.hasLabel_iff (n := .branch i condition yes no) rfl]
          simp [children,visited,parts,there,solid,isOmitted_of_straight hy]
    · have solid := isOmitted_of (isInert_of_isOperand calm) rfl
      have hr : right ∈ (Node.assign i toCircuit (.name j b) right op).children :=
        mem_filter.2 ⟨by simp [visited,parts],by simp [solid]⟩
      have hl : .name j b ∈ (Node.assign i toCircuit (.name j b) right op).children :=
        mem_filter.2 ⟨by simp [visited,parts],rfl⟩
      have apart : (Node.name j b).id ≠ right.id := by
        have range := linked.holds.range right (child hr).mem_subtrees (isLeaflet_of (isInert_of_isOperand calm) fun _ => rfl)
        have nodup : (([Node.name j b] ++ right :: []).flatMap numbers).Nodup := nodup_parts path linked.holds.nodup
        exact id_ne_of_before nodup (linked.holds.pos.trans_le range.1) _ (by simp)
      have free : Program.isAssigned right (.assign i toCircuit (.name j b) right op :: inner ++ [f,c,root]) = false := by
        simp [Program.isAssigned,apart]
      obtain ⟨k,x,rfl⟩ := label_of_name (child hl) linked.proper
      have way : ∃ w, w = [assigns (p.referent (.name j (.identifier k x))).id] := ⟨_,rfl⟩
      rw [Program.followFinals]
      refine ((h.judged_operand pos (child hr) calm free outside (.inr within) a).bind ⟨_,rfl⟩ way fun b =>
        h.judged_assignment pos path plain b).congr (fun w => Program.way_assign.symm) ?_
      rw [Program.hasLabel_iff (n := .assign i toCircuit (.name j (.identifier k x)) right op) rfl,← Program.hasLabel_name]
      simp [children,visited,parts,solid,or_comm,show (Node.name j (.identifier k x)).isOmitted = false from rfl]
    · exact ((h.judged_operand pos path calm free plain (.inl (isStatement_of_straight straight)) a).congr
        (fun w => (Program.way_simple simple).symm) Iff.rfl)

end Hosts

theorem Links.walkable_of_recordAll {place : Place} {l l' : Links} (h : recordAll place n l = .ok l') :
    ∀ m ∈ n.preorder, m.lacksParameters = false := by
  induction n generalizing place l l' with
  | step n ih =>
    rw [recordAll_eq] at h
    cases own : n.lacksParameters with
    | true =>
      rw [own,if_pos rfl] at h
      cases h
    | false =>
      rw [own,if_neg (by simp)] at h
      have each : ∀ c ∈ n.children, ∃ l l', recordAll (place.inside n) c l = .ok l' := by
        generalize l.record place n = start at h
        generalize n.children = cs at h
        induction cs generalizing start with
        | nil => simp
        | cons _ _ ihc =>
          rw [foldlM_cons,bind_ok] at h
          obtain ⟨next,first,rest⟩ := h
          exact forall_mem_cons.2 ⟨⟨_,_,first⟩,ihc next rest⟩
      intro m hm
      rw [preorder_eq,mem_cons,mem_flatMap] at hm
      obtain rfl | ⟨c,hc,hm⟩ := hm
      · exact own
      · obtain ⟨l,l',recorded⟩ := each c hc
        exact ih c (part_of_child hc) recorded m hm

theorem Program.checkFinals_of_units (contract : c.isContract)
    (only : ∀ u ∈ p.tree.children, u = c ∨ ∃ i name version, u = .pragma i name version) (hc : c ∈ p.tree.children) :
    p.checkFinals = p.checkContractFinals c := by
  classical
  have each {us : List Node} (kinds : ∀ u ∈ us, u = c ∨ ∃ i name version, u = .pragma i name version) :
      us.forM (fun n => do if n.isContract then p.checkContractFinals n else let _ ← p.followFinals none n) =
        if c ∈ us then p.checkContractFinals c else .ok () := by
    induction us with
    | nil => rfl
    | cons u us ih =>
      rw [forall_mem_cons] at kinds
      change (_ >>= fun _ => us.forM _) = _
      rw [ih kinds.2]
      dsimp only
      obtain rfl | ⟨i,name,version,rfl⟩ := kinds.1
      · rw [if_pos contract,if_pos mem_cons_self]
        cases p.checkContractFinals u <;> simp [bind,Except.bind]
      · have other : c ≠ .pragma i name version := by
          rintro rfl
          cases contract
        rw [if_neg (by simp [isContract]),followFinals_inert rfl rfl]
        simp only [mem_cons,other,false_or]
        rfl
  rw [Program.checkFinals,each only,if_pos hc]

section Loaded

variable {text : String} {settings : Settings} {p : Program} {c : Node}
  (run : Runs (loadLinked text) { Globals.base with settings } () p) (hc : c ∈ p.contracts)
include run hc

theorem contract_of_runs : ∃ first root, LinkedSource p first root ∧ (∀ m ∈ root.preorder, m.lacksParameters = false) ∧
    Path root [root] c ∧ c.isContract ∧ (∃ name, nameText c = .ok name) ∧
    ∀ f ∈ c.units, f.isOmitted = false → Path root [c,root] f ∧
      (f.isFunction → ∃ name, nameText f = .ok name) := by
  obtain ⟨q,r,s,loaded,placed,filled,linking⟩ := steps_of_runs run
  have linked := (initial_base settings).linkedSource loaded placed (runs_bind.2 ⟨(),s,filled,linking⟩)
  have scope := (placed_of_base loaded placed).scoped (initial_base settings).equipped filled
  have walkable : ∀ m ∈ q.tree.preorder, m.lacksParameters = false := by
    obtain ⟨l,_,asked,-⟩ := runs_bind.1 placed
    exact Links.walkable_of_recordAll (runs_ask.1 asked).1
  generalize q.tree = root at linked scope walkable
  have path : Path root [root] c ∧ c.isContract := by
    rw [Program.contracts,linked.tree_eq] at hc
    split at hc
    next i units head single =>
      obtain ⟨unit,contract⟩ := mem_filter.1 hc
      refine ⟨Path.root.child (mem_filter.2 ⟨unit,?_⟩),contract⟩
      cases c <;> first | rfl | cases contract
    next => cases hc
  obtain ⟨path,contract⟩ := path
  have name {n : Node} {e : String × Nat} (listed : Lists n e) : ∃ name, nameText n = .ok name := by
    obtain ⟨i,named,-⟩ := listed
    exact ⟨e.1,by rw [nameText,named]⟩
  refine ⟨_,root,linked,walkable,path,contract,?_,fun f unit present => ?_⟩
  · obtain ⟨e,listed⟩ := scope.named c (scope.mem_contracts path contract)
    exact name listed
  have child : f ∈ c.children := by
    cases c with
    | contract => exact mem_filter.2 ⟨mem_cons_of_mem _ unit,by simp [present]⟩
    | _ => cases contract
  have role := role_of_isContract contract
  refine ⟨path.child child,fun function => ?_⟩
  have declared := scope.mem_declared path (.inl role) child (by cases f <;> first | rfl | cases function)
  obtain own | ⟨carrier,-⟩ := scope.tabled c path.mem_preorder (by rw [role]; decide)
  · rw [Own,role] at own
    obtain ⟨e,listed⟩ := own.2 f declared
    exact name listed
  · rw [role] at carrier
    exact absurd carrier (by decide)

theorem judged_assignedBy (lone : c.constructors.length ≤ 1) (straight : ∀ b ∈ c.constructorBodies, b.isStraight) :
    Judged ((finalsOf c).map Node.id) (fun _ => false) (p.Ways c.constructorBodies)
      (∃ b ∈ c.constructorBodies, p.HasLabel b) (p.assignedBy c) := by
  obtain ⟨first,root,linked,walkable,-,contract,named,units⟩ := contract_of_runs run hc
  have start : (finalsOf c).map (fun v => (v.id,false)) = table ((finalsOf c).map Node.id) fun _ => false := by
    rw [table,map_map]
    rfl
  have pos : 0 ∉ (finalsOf c).map Node.id := by
    intro zero
    obtain ⟨v,hv,zero⟩ := mem_map.1 zero
    obtain ⟨unit,kind⟩ := mem_filter.1 (mem_filter.1 hv).1
    have path := (units v unit (by cases v <;> first | rfl | cases kind)).1
    have range := linked.holds.range v path.mem_subtrees (isLeaflet_of kind fun _ => rfl)
    have := linked.holds.pos
    omega
  have void (bodies : c.constructorBodies = []) : Judged ((finalsOf c).map Node.id) (fun _ => false)
      (p.Ways c.constructorBodies) (∃ b ∈ c.constructorBodies, p.HasLabel b)
      (.ok (some (table ((finalsOf c).map Node.id) fun _ => false))) := by
    rw [bodies]
    exact Judged.nil.congr (fun w => ⟨fun h => h ▸ .nil,fun h => by cases h; rfl⟩) (by simp)
  unfold Program.assignedBy
  rw [start]
  dsimp only
  match listed : c.constructors, lone with
  | [], _ => exact void (by simp [constructorBodies,listed])
  | [f], _ =>
    have mem : f ∈ c.constructors := by simp [listed]
    obtain ⟨unit,kind⟩ := mem_filter.1 mem
    cases f with
    | function i name parameters marks results body k =>
      cases omitted : body.isOmitted with
      | true =>
        simp only [omitted,if_true]
        exact void (by simp [constructorBodies,listed,bodyOf,omitted])
      | false =>
        simp only [omitted,Bool.false_eq_true,if_false]
        have bodies : c.constructorBodies = [body] := by simp [constructorBodies,listed,bodyOf,omitted]
        obtain ⟨path,named'⟩ := units _ unit rfl
        have hosts : Hosts p root c (.function i name parameters marks results body k) :=
          ⟨⟨first,linked⟩,walkable,path,contract,rfl,named,named' rfl⟩
        have child : body ∈ (Node.function i name parameters marks results body k).children :=
          mem_filter.2 ⟨by simp [visited],by simp [omitted]⟩
        have path' : Path root ([] ++ [_,c,root]) body := path.child child
        have judged := hosts.judged_statement pos path' (straight body (by simp [bodies])) rfl (by simp) fun _ => false
        rw [bodies]
        refine judged.congr (fun w => ?_) ?_
        · rw [← along_ways]
          simp [Along]
        · simp
    | _ => cases kind

/-- Final variables are checked by the ways through the constructor. A contract is accepted exactly if on every way each of
its final variables is assigned once and otherwise occurs only behind that, and no name in the constructor is a label; and
without labels there is no other answer than that the contract breaks a rule on types. -/
theorem finals_set_once_iff (lone : c.constructors.length ≤ 1)
    (straight : ∀ b ∈ c.constructorBodies, b.isStraight = true) :
    (p.checkContractFinals c = .ok () ↔ (∀ b ∈ c.constructorBodies, ¬ p.HasLabel b) ∧
      ∀ w, p.Ways c.constructorBodies w → ∀ v ∈ Program.finalsOf c, SetOnce v.id w) ∧
    (p.checkContractFinals c ≠ .ok () → (∃ message, p.checkContractFinals c = .error (.illTyped message)) ∨
      p.checkContractFinals c = .error .misused ∧ ∃ b ∈ c.constructorBodies, p.HasLabel b) ∧
    ((∀ u ∈ p.tree.children, u = c ∨ ∃ i name version, u = .pragma i name version) →
      p.checkFinals = p.checkContractFinals c) := by
  obtain ⟨first,root,linked,-,outer,contract,named,units⟩ := contract_of_runs run hc
  have judged := judged_assignedBy run hc lone straight
  rw [← and_assoc]
  constructor
  · simp only [setOnce_iff]
    unfold Program.checkContractFinals
    generalize p.assignedBy c = r at judged
    cases judged with
    | stuck label => simp_all [bind,Except.bind]
    | refused message apart =>
      refine ⟨⟨(nomatch ·),fun ⟨_,all⟩ => (apart ⟨fun _ => true,fun w hw k hk => ?_⟩).elim⟩,fun _ => .inl ⟨_,rfl⟩⟩
      obtain ⟨v,hv,rfl⟩ := List.mem_map.1 hk
      exact all w hw v hv
    | accepted b clear all =>
      simp only [bind,Except.bind,Option.getD_some,find?_unset]
      cases found : (Program.finalsOf c).find? (!b ·.id) with
      | none =>
        refine ⟨⟨fun _ => ⟨by simpa using clear,fun w hw v hv => ?_⟩,fun _ => rfl⟩,fun other => absurd rfl other⟩
        have set := List.find?_eq_none.1 found v hv
        rw [all w hw v.id (List.mem_map_of_mem hv)]
        simpa using set
      | some v =>
        have hv := List.mem_of_find?_eq_some found
        have unset := List.find?_some found
        obtain ⟨unit,kind⟩ := List.mem_filter.1 (List.mem_filter.1 hv).1
        have path := (units v unit (by cases v <;> first | rfl | cases kind)).1
        obtain ⟨text,told⟩ := linked.exists_report path contract named kind "Did not set all final state variables"
        simp only [told]
        refine ⟨⟨(nomatch ·),fun ⟨_,once⟩ => ?_⟩,fun _ => .inl ⟨_,rfl⟩⟩
        obtain ⟨w,hw⟩ := exists_along fun n hn => p.exists_way (straight n hn)
        rw [along_ways] at hw
        have left := all w hw v.id (List.mem_map_of_mem hv)
        rw [once w hw v hv] at left
        simp_all
  · intro only
    refine Program.checkFinals_of_units contract only ?_
    rw [linked.tree_eq]
    cases outer with
    | child _ mem => exact mem

end Loaded

/-- A contract without final variables, whose constructor declares a mapping with a label. -/
def labelledLocal : String :=
  "contract C\x7bmapping(address!x=>uint@x)m;constructor()public\x7bmapping(address!x=>uint@x)storage y=m;\x7d\x7d"

/-- The check of the only contract, which has no final variables, stops. -/
def Program.stopsEarly (p : Program) : Bool :=
  match p.contracts with
  | [c] => decide (c.constructors.length ≤ 1) && c.constructorBodies.all (·.isStraight) && (finalsOf c).isEmpty &&
      match p.checkContractFinals c with
      | .error .misused => true
      | _ => false
  | _ => false

/-- A label is the one thing that stops the check, although no final variable is there to be assigned. -/
theorem labelledLocal_stops : ∃ p c, Runs (loadLinked labelledLocal) { Globals.base with settings := {} } () p ∧
    p.contracts = [c] ∧ Program.finalsOf c = [] ∧ p.checkContractFinals c = .error .misused ∧
    ∃ b ∈ c.constructorBodies, p.HasLabel b := by
  have chars : labelledLocal = String.ofList _ := rfl
  have evaluated : (loadLinked labelledLocal).succeeds { Globals.base with settings := {} } (fun _ p => p.stopsEarly) := by
    rw [loadLinked,load_eq chars]
    decide +kernel
  obtain ⟨_,p,run,evaluated⟩ := of_succeeds evaluated
  unfold Program.stopsEarly at evaluated
  split at evaluated
  next c listed =>
    simp only [Bool.and_eq_true,decide_eq_true_eq,List.all_eq_true,List.isEmpty_iff] at evaluated
    obtain ⟨⟨⟨lone,straight⟩,unset⟩,stops⟩ := evaluated
    split at stops
    next answer =>
      obtain ⟨message,told⟩ | ⟨-,label⟩ :=
        (finals_set_once_iff run (by simp [listed]) lone straight).2.1 (by simp [answer])
      · rw [answer] at told
        cases told
      · exact ⟨p,c,run,listed,unset,answer,label⟩
    next => cases stops
  next => cases evaluated

end Confidential
