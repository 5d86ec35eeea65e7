import Confidential.Analysis.SideEffects

/-!
Which owners are known to be the same before and after every statement.
-/

namespace Confidential

namespace Program

/-- The owner that an expression names, if it names one. -/
def labelWithin (p : Program) : Nat → Node → Outcome (Option Label)
  | 0, _ => .error .overflow
  | fuel + 1, n =>
    match n with
    | .name .. => do
      match ← p.target n with
      | .omitted => .error .absent
      | .mapping i _ _ _ =>
        match p.keys[i.id]? with
        | some k => p.labelWithin fuel (p.node k)
        | none => .error .absent
      | target =>
        match target.ownName? with
        | some name => return if name.isOmitted then none else some (.identifier name.id)
        | none => .error .absent
    | .owner _ who => return some (.owner who)
    | n => if n.isExpression then return none else .error .absent

def label (p : Program) (n : Node) : Outcome (Option Label) :=
  p.labelWithin (p.next + 1) n

def isImmutable (p : Program) : Label → Bool
  | .owner _ => true
  | .identifier k =>
    match (p.links.parents[k]?).map p.node with
    | some (.stateVariable _ _ keywords _ _ _) => keywords.contains "final" || keywords.contains "constant"
    | _ => false

def labelText (p : Program) : Label → String
  | .owner who => who.word
  | .identifier k => ((p.node k).identifierText?).getD ""

end Program

namespace Aliases

def forget (p : Program) (s : Partition Label) : Partition Label :=
  s.separateAll p.isImmutable

def settled : Outcome Unit × Partition Label → Outcome (Partition Label)
  | (.ok (),s) => .ok s
  | (.error e,_) => .error e

def assign (p : Program) : Node → Node → Partition Label → Outcome (Partition Label)
  | .tuple _ ls, .tuple _ rs, s =>
    (ls.attach.zip rs).foldlM (fun s (⟨l,_⟩,r) => assign p l r s) s
  | left, right, s => do
    match ← p.label left, ← p.label right with
    | some x, some y => settled (s.moveTo x y)
    | _, _ => return s
termination_by left => sizeOf left

def narrows (op : Operator) : Bool :=
  [.negation,.both,.parenthesis,.equal].contains op

/-- What holds where the condition holds. Operations that would tell something cannot be taken apart. -/
def guard (n : Node) (s : Partition Label) : Outcome (Partition Label) := do
  match n with
  | .call _ (.builtin _ op) _ _ => if narrows op then .error .misused else return s
  | .call .. => return s
  | n =>
    n.ensureWalkable
    n.children.attach.foldlM (fun s ⟨c,_⟩ => guard c s) s
termination_by sizeOf n
decreasing_by exact Node.sizeOf_lt_child (by assumption)

def whenTrue (p : Program) (condition : Node) (s : Partition Label) : Outcome (Partition Label) := do
  if ← p.hasSideEffects condition then return forget p s
  guard condition s

def whenFalse (p : Program) (condition : Node) (s : Partition Label) : Outcome (Partition Label) := do
  if condition.isOmitted then .error .absent
  if ← p.hasSideEffects condition then return forget p s
  .error .misused

def anySideEffects (p : Program) : List Node → Outcome Bool
  | [] => .ok false
  | n :: ns => do
    if ← p.hasSideEffects n then return true
    anySideEffects p ns

end Aliases

namespace Pass
open Aliases

def before (n : Node) : Pass (Partition Label) := do
  match (← get).before[n.id]? with
  | some s => return s
  | none => throw .absent

def after (n : Node) : Pass (Partition Label) := do
  match (← get).after[n.id]? with
  | some s => return s
  | none => throw .absent

def setBefore (n : Node) (s : Partition Label) : Pass Unit := do
  if n.isOmitted then throw .absent
  modify fun p => { p with before := p.before.insert n.id s }

def setAfter (n : Node) (s : Partition Label) : Pass Unit :=
  modify fun p => { p with after := p.after.insert n.id s }

def forgetBefore (n : Node) (parts : List Node) : Pass Unit := do
  if ← ask fun p => anySideEffects p parts then
    setBefore n (forget (← get) (← before n))

def declared (n : Node) : Pass (List Label) := do
  return (← ask fun p => p.names n).map fun entry => .identifier entry.2

def dropAfter (n : Node) (names : List Label) : Pass Unit :=
  names.forM fun name => do
    let (r,s) := (← after n).remove name
    setAfter n s
    ofOutcome r

def entry (parent : Node) (parameters : List Node) : Pass (Partition Label) := do
  if !parent.isContract then throw .absent
  let names := (parent.stateVariables ++ parameters).filterMap fun d =>
    (d.ownName?).map fun name => Label.identifier name.id
  return (Label.owner .me :: .owner .all :: .owner .tee :: names).foldl Partition.insert {}

def findAliases (n : Node) : Pass Unit := do
  match n with
  | .function _ _ parameters _ _ body _ =>
    let start ← entry (← ask fun p => p.parent n) (parameters.getD [])
    setBefore body start
    findAliases body
  | .statements _ _ body =>
    let start ← before n
    let names ← if n.isBlock then declared n else pure []
    let last ← body.attach.foldlM (fun last ⟨s,_⟩ => do
      setBefore s last
      findAliases s
      after s) (names.foldl Partition.insert start)
    setAfter n last
    dropAfter n names
  | .branch _ condition yes no =>
    let start ← before n
    setBefore yes (← ask fun p => whenTrue p condition start)
    findAliases yes
    let afterYes ← after yes
    let afterNo ← if no.isOmitted then pure start else do
      setBefore no (← ask fun p => whenFalse p condition start)
      findAliases no
      after no
    setAfter n (← ofOutcome (afterYes.join afterNo))
  | .whileLoop _ condition body =>
    forgetBefore n [condition,body]
    let start ← before n
    setBefore body (← ask fun p => whenTrue p condition start)
    findAliases body
    let skipped ← ask fun p => whenFalse p condition start
    let afterBody ← after body
    let done ← ask fun p => whenFalse p condition afterBody
    setAfter n (← ofOutcome (skipped.join done))
  | .doWhileLoop _ body condition =>
    forgetBefore n [condition,body]
    setBefore body (← before n)
    findAliases body
    setBefore n (← after body)
    let start ← before n
    setAfter n (← ask fun p => whenFalse p condition start)
  | .forLoop _ start condition update body =>
    let names ← declared n
    let last := names.foldl Partition.insert (← before n)
    if !start.isOmitted then
      setBefore start last
      findAliases start
      setBefore n (← after start)
    if ← ask fun p => anySideEffects p [condition,body,update] then
      setBefore n (forget (← get) last)
    let known ← before n
    setBefore body (← ask fun p => whenTrue p condition known)
    findAliases body
    if !update.isOmitted then
      setBefore update (← after body)
      findAliases update
    let afterStart ← after start
    let skipped ← ask fun p => whenFalse p condition afterStart
    let afterRound ← after (if update.isOmitted then body else update)
    let done ← ask fun p => whenFalse p condition afterRound
    setAfter n (← ofOutcome (skipped.join done))
    dropAfter n names
  | .variableStatement _ declaration value =>
    forgetBefore n [value]
    let known ← before n
    let name := Label.identifier ((declaration.ownName?).getD .omitted).id
    if !known.has name then throw .violated
    let owner ← if value.isOmitted then pure none else ask fun p => p.label value
    match owner with
    | some x => setAfter n (← ofOutcome (settled (known.merge name x)))
    | none => setAfter n known
  | .require _ condition _ _ =>
    forgetBefore n [condition]
    let known ← before n
    if condition matches .call _ (.builtin _ .equal) _ _ then throw .misused
    setAfter n known
  | .assign _ _ left right _ =>
    forgetBefore n [left,right]
    let known ← before n
    setAfter n (← ask fun p => assign p left right known)
  | .expressionStatement _ value =>
    forgetBefore n [value]
    setAfter n (← before n)
  | .returnValue .. | .continueLoop .. | .breakLoop .. =>
    match (← get).before[n.id]? with
    | some s => setAfter n s
    | none => return ()
  | n =>
    if n.isStatement then throw (.unsupported (some ""))
    ofOutcome n.ensureWalkable
    n.children.attach.forM fun ⟨c,_⟩ => findAliases c
termination_by sizeOf n
decreasing_by all_goals first | exact Node.sizeOf_lt_child (by assumption) | decreasing_tactic

end Pass
end Confidential
