import Confidential.Proofs.RawTrees

/-!
Reserved names. No accepted source has one of them in its tree, and none declares one, but for the parameters of
function types: what is passed over in a tuple is not looked at.
-/

namespace Confidential

open List Outcome Elaboration

/-- If the step succeeds, none of these words is reserved. -/
def Elaboration.Admits {α : Type} (x : Outcome α) (ws : List Surface.Word) : Prop :=
  Yields (fun _ => ∀ w ∈ ws, isReserved w.text = false) x

namespace Elaboration

variable {α β : Type} {x : Outcome α} {ws : List Surface.Word} {cx : Elaboration}

namespace Admits

variable {as bs : List Surface.Word}

attribute [local simp] Admits Yields in
theorem nil : Admits x [] := by
  simp

theorem append (h : Admits x as) (h' : Admits x bs) : Admits x (as ++ bs) :=
  fun a ha => forall_mem_append.2 ⟨h a ha,h' a ha⟩

theorem left {f : α → Outcome β} (h : Admits x ws) : Admits (x >>= f) ws :=
  h.bind fun _ known _ _ => known

theorem right {f : α → Outcome β} (h : ∀ a, Admits (f a) ws) : Admits (x >>= f) ws :=
  .skip h

theorem both {f : α → Outcome β} (h : Admits x as) (h' : ∀ a, Admits (f a) bs) : Admits (x >>= f) (as ++ bs) :=
  .append h.left (.right h')

theorem map {f : α → β} (h : Admits x ws) : Admits (f <$> x) ws :=
  Yields.map h fun _ known => known

theorem mapM {f : β → Outcome α} {g : β → List Surface.Word} {bs : List β} (h : ∀ b, Admits (f b) (g b)) :
    Admits (bs.mapM f) (bs.flatMap g) := by
  induction bs with
  | nil => exact .nil
  | cons b _ ih =>
    rw [mapM_cons]
    exact .both (h b) fun _ => .left ih

end Admits

theorem admits_identifier (w : Surface.Word) : Admits (cx.identifier w) [w] := by
  unfold identifier
  split
  · exact yields_refuse
  next start =>
    split
    · exact yields_refuse
    next stop => exact .ok (by simp_all [isReserved])

example : isReserved "zk__x" = true := by decide +kernel

theorem admits_label (w : Option Surface.Word) : Admits (cx.optionalIdentifier w) w.toList := by
  cases w with
  | none => exact .nil
  | some w => exact admits_identifier w

end Elaboration

namespace Surface

variable {cx : Elaboration}

def Param.declared : Param → List Word
  | .mk _ _ _ _ name => name.toList

attribute [local simp] Param.declared in
theorem Param.admits (kind : DeclKind) (p : Param) : Admits (p.toNode cx kind) p.declared := by
  cases p
  rw [Param.toNode]
  exact .right fun _ => .left (admits_label _)

theorem Param.admits_nodes (kind : DeclKind) (ps : List Param) :
    Admits (Param.toNodes cx kind ps) (ps.flatMap declared) := by
  induction ps with
  | nil => exact .nil
  | cons p _ ih =>
    rw [Param.toNodes]
    exact .both (p.admits kind) fun _ => .left ih

theorem Param.admits_optional (ps : Option (List Param)) :
    Admits (Param.toOptional cx ps) ((ps.getD []).flatMap declared) := by
  cases ps with
  | none => exact .nil
  | some ps => exact .map (Param.admits_nodes .parameter ps)

mutual

/-- The words that are declared as names by a statement or inside of it. -/
def Stmt.declared : Stmt → List Word
  | .block _ body => Stmt.declaredIn body
  | .variable _ d _ => d.declared
  | .declarations _ ds _ => ds.flatMap fun d => (d.map Param.declared).getD []
  | .branch _ _ yes (some no) => yes.declared ++ no.declared
  | .forLoop _ (some start) _ _ body => start.declared ++ body.declared
  | .tryCall _ _ returns body clauses =>
    (returns.getD []).flatMap Param.declared ++ (body.declared ++ CatchClause.declaredIn clauses)
  | .branch _ _ body none | .forLoop _ none _ _ body | .whileLoop _ _ body | .doWhileLoop _ body _ => body.declared
  | _ => []

def Stmt.declaredIn : List Stmt → List Word
  | [] => []
  | s :: rest => s.declared ++ Stmt.declaredIn rest

def CatchClause.declaredIn : List CatchClause → List Word
  | [] => []
  | .mk _ _ ps body :: rest => (ps.getD []).flatMap Param.declared ++ body.declared ++ CatchClause.declaredIn rest

end

mutual

theorem Stmt.admits (s : Stmt) : Admits (s.toNode cx) s.declared := by
  rw [Stmt.toNode.eq_def]
  match s with
  | .block p body => exact .left (Stmt.admits_all body)
  | .variable p d v => exact .left (d.admits _)
  | .declarations p ds v =>
    refine .left (.mapM fun d => ?_)
    cases d with
    | none => exact .nil
    | some d => exact d.admits _
  | .branch p c yes (some no) =>
    exact .right fun _ => .both yes.admits fun _ => .left (.map no.admits)
  | .branch p c yes none => exact .right fun _ => .left yes.admits
  | .forLoop p (some start) c u body =>
    refine .both start.admits fun _ => .right fun _ => ?_
    cases u <;> exact .right fun _ => .left body.admits
  | .forLoop p none c u body =>
    refine .right fun _ => .right fun _ => ?_
    cases u <;> exact .right fun _ => .left body.admits
  | .whileLoop p c body => exact .right fun _ => .left body.admits
  | .doWhileLoop p body c => exact .left body.admits
  | .tryCall p call returns body clauses =>
    exact .right fun _ => .both (Param.admits_optional returns) fun _ => .both body.admits fun _ =>
      .left (CatchClause.admits_all clauses)
  | .expression .. | .continueLoop .. | .breakLoop .. | .returnValue .. | .emit .. | .revert .. | .assembly .. => exact .nil

theorem Stmt.admits_all (ss : List Stmt) : Admits (Stmt.toNodes cx ss) (Stmt.declaredIn ss) := by
  rw [Stmt.toNodes.eq_def]
  match ss with
  | [] => exact .nil
  | s :: rest => exact .both s.admits fun _ => .left (Stmt.admits_all rest)

theorem CatchClause.admits_all (cs : List CatchClause) :
    Admits (CatchClause.toNodes cx cs) (CatchClause.declaredIn cs) := by
  rw [CatchClause.toNodes.eq_def]
  match cs with
  | [] => exact .nil
  | .mk p label ps body :: rest =>
    refine .both ?_ fun _ => .left (CatchClause.admits_all rest)
    rw [CatchClause.toNode]
    exact .right fun _ => .both (Param.admits_optional ps) fun _ => .left body.admits

end

def Stmt.declaredBy (s : Option Stmt) : List Word :=
  (s.map Stmt.declared).getD []

theorem Stmt.admits_optional (s : Option Stmt) : Admits (Stmt.toOptional cx s) (declaredBy s) := by
  cases s with
  | none => exact .nil
  | some s => exact s.admits

mutual

/-- The words that are declared as names by a declaration or inside of it, parameters of function types apart. -/
def Decl.declared : Decl → List Word
  | .constructor _ ps _ body => ps.flatMap Param.declared ++ body.declared
  | .function _ special name ps _ rs body =>
    (if special then [] else [name]) ++ (ps.flatMap Param.declared ++
      ((rs.getD []).flatMap Param.declared ++ Stmt.declaredBy body))
  | .modifier _ name ps _ body => [name] ++ (ps.flatMap Param.declared ++ Stmt.declaredBy body)
  | .fallback _ ps _ rs body =>
    (ps.getD []).flatMap Param.declared ++ ((rs.getD []).flatMap Param.declared ++ Stmt.declaredBy body)
  | .receive _ _ body => Stmt.declaredBy body
  | .struct _ name members => [name] ++ members.flatMap fun (.mk _ _ w) => [w]
  | .enum _ name values => [name] ++ values.flatMap ([·])
  | .valueType _ name _ | .stateVariable _ _ _ _ name _ | .constant _ _ name _ => [name]
  | .event _ name ps _ => [name] ++ ps.flatMap fun (.mk _ _ _ w) => w.toList
  | .error _ name ps => [name] ++ ps.flatMap fun (.mk _ _ w) => w.toList
  | .contract _ name parts | .interface _ name _ parts | .library _ name parts => [name] ++ Decl.declaredIn parts
  | .using .. | .pragma .. | .importFile .. => []

def Decl.declaredIn : List Decl → List Word
  | [] => []
  | d :: rest => d.declared ++ Decl.declaredIn rest

end

theorem admits_plain (what : String) (w : Word) : Admits (plainIdentifier cx what w) [w] :=
  .left (admits_identifier w)

mutual

theorem Decl.admits (d : Decl) : Admits (d.toNode cx) d.declared := by
  rw [Decl.toNode.eq_def]
  match d with
  | .constructor p ps marks body =>
    exact .both (Param.admits_nodes _ ps) fun _ => .right fun _ => .left body.admits
  | .function p special name ps marks rs body =>
    cases special with
    | true =>
      exact .append .nil (.right fun _ => .both (Param.admits_nodes _ ps) fun _ => .right fun _ =>
        .both (Param.admits_optional rs) fun _ => .left (Stmt.admits_optional body))
    | false =>
      exact .both (admits_identifier name) fun _ => .both (Param.admits_nodes _ ps) fun _ => .right fun _ =>
        .both (Param.admits_optional rs) fun _ => .left (Stmt.admits_optional body)
  | .modifier p name ps marks body =>
    exact .both (admits_identifier name) fun _ => .both (Param.admits_nodes _ ps) fun _ => .left (Stmt.admits_optional body)
  | .fallback p ps marks rs body =>
    exact .both (Param.admits_optional ps) fun _ => .both (Param.admits_optional rs) fun _ =>
      .left (Stmt.admits_optional body)
  | .receive p marks body => exact .left (Stmt.admits_optional body)
  | .struct p name members =>
    refine .both (admits_identifier name) fun _ => .left (.mapM fun m => ?_)
    cases m
    exact .left (admits_identifier _)
  | .enum p name values =>
    exact .both (admits_plain _ name) fun _ => .left (.mapM fun w => .left (admits_plain _ w))
  | .valueType .. => exact .left (admits_identifier _)
  | .stateVariable .. | .constant .. => exact .right fun _ => .left (admits_identifier _)
  | .event .. | .error .. =>
    refine .both (admits_identifier _) fun _ => .left (.mapM fun q => ?_)
    cases q
    exact .right fun _ => .left (admits_label _)
  | .contract p name parts | .library p name parts => exact .both (admits_identifier name) fun _ => .left (Decl.admits_all parts)
  | .interface p name bases parts =>
    exact .both (admits_identifier name) fun _ => .right fun _ => .left (Decl.admits_all parts)
  | .using .. | .pragma .. | .importFile .. => exact .nil

theorem Decl.admits_all (ds : List Decl) : Admits (Decl.toNodes cx ds) (Decl.declaredIn ds) := by
  rw [Decl.toNodes.eq_def]
  match ds with
  | [] => exact .nil
  | d :: rest => exact .both d.admits fun _ => .left (Decl.admits_all rest)

end

def Source.declared : Source → List Word
  | .unit _ parts => Decl.declaredIn parts
  | .statement _ s => s.declared
  | .part _ d => d.declared
  | _ => []

theorem Source.admits (s : Source) : Admits (s.toNode cx) s.declared := by
  cases s with
  | unit _ parts => exact .left (Decl.admits_all parts)
  | statement _ s => exact .left s.admits
  | part _ d => exact .left d.admits
  | _ => exact .nil

end Surface

/-- A name that is passed over: the component behind the comma is not looked at. -/
def passedOver : String :=
  "contract C\x7bfunction f()public\x7b(,type(function(uint zkx)external));\x7d\x7d"

end Confidential
