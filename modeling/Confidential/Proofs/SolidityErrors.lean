import Confidential.Proofs.Runs

/-!
Errors that the Solidity compiler has found.
-/

namespace Confidential.Solc

open List

/-- A place that the compiler names. -/
structure Spot where
  file : String
  start : Int

/-- An entry of the compiler's answer. -/
structure Problem where
  severity : String
  kind : String
  message : String
  spot : Option Spot := none

namespace Problem

def isError (e : Problem) : Bool :=
  e.severity == "error"

/-- Entries without a place come before the start of a file. -/
def offset (e : Problem) : Int :=
  (e.spot.map (·.start)).getD (-1)

def isIn (file : String) (e : Problem) : Bool :=
  e.spot.any (·.file == file)

structure IsWritten (e : Problem) (v : Value) : Prop where
  severity : v.field "severity" = .ok (.text e.severity)
  kind : v.field "type" = .ok (.text e.kind)
  message : v.field "message" = .ok (.text e.message)
  located : has v "sourceLocation" = .ok e.spot.isSome
  spot : ∀ s, e.spot = some s → ∃ l, v.field "sourceLocation" = .ok l ∧ l.field "file" = .ok (.text s.file) ∧
    l.field "start" = .ok (.int s.start)

def toValue (e : Problem) : Value :=
  .record ([("severity",.text e.severity),("type",.text e.kind),("message",.text e.message)] ++
    e.spot.toList.map fun s => ("sourceLocation",.record [("file",.text s.file),("start",.int s.start)]))

theorem isWritten_toValue (e : Problem) : e.IsWritten e.toValue := by
  cases e with
  | mk _ _ _ spot =>
    cases spot with
    | none => exact ⟨rfl,rfl,rfl,rfl,fun s hs => by cases hs⟩
    | some =>
      refine ⟨rfl,rfl,rfl,rfl,fun s' hs => ⟨_,rfl,?_⟩⟩
      cases hs
      exact ⟨rfl,rfl⟩

end Problem

def Lists (output : Value) (es : List Problem) : Prop :=
  (has output "errors" = .ok false ∧ es = []) ∨
  ∃ vs, has output "errors" = .ok true ∧ output.field "errors" = .ok (.list vs) ∧ List.Forall₂ Problem.IsWritten es vs

theorem lists_record (es : List Problem) : Lists (.record [("errors",.list (es.map (·.toValue)))]) es := by
  refine .inr ⟨_,rfl,rfl,?_⟩
  rw [forall₂_map_right_iff,forall₂_same]
  exact fun e _ => e.isWritten_toValue

def inOrder (es : List Problem) : List Problem :=
  es.mergeSort fun a b => a.offset ≤ b.offset

/-! ### What is reported -/

def Spot.text (file : File) (s : Spot) : String :=
  if s.file = file.name then
    let (line,column) := lineAndColumn file.code s.start
    (Report.location line (column + 1) (Text.lines file.shown) none none none).toOption.getD "" ++ "\n"
  else s!"In imported file '{s.file}' idx: {s.start}\n"

/-- What is said about an entry before its message, if `place` is said about its place. -/
def Problem.opening (e : Problem) (place : String) : String :=
  "\n" ++ e.severity.toUpper ++ ": " ++ (if e.isError then e.kind else "") ++ "\n" ++ place ++ "\n"

def Problem.report (e : Problem) (place : String) : String :=
  e.opening place ++ e.message ++ "\n"

/-- What has been reported after an entry. An entry without a place needs one before it. -/
def Reported.after (file : File) (so : Reported) (e : Problem) : Option Reported :=
  let place? := match e.spot with
    | some s => some (s.text file)
    | none => so.last
  place?.map fun place =>
    { last := some (e.report place)
      fatal := so.fatal ++ if e.isError then e.report place else ""
      failed := so.failed || (e.isError && e.isIn file.name) }

theorem exists_location (line column : Int) (source : List String) :
    ∃ text, Report.location line column source none none none = .ok text := by
  have entry {i : Int} (low : 0 ≤ i) (high : i < source.length) : ∃ t, Report.entry source i = .ok t := by
    have bound : i.toNat < source.length := by omega
    refine ⟨source[i.toNat],?_⟩
    simp [Report.entry,Int.not_lt.2 low,bound]
  unfold Report.location
  dsimp only
  split
  · exact ⟨_,rfl⟩
  next inside =>
    simp only [Bool.or_eq_true,decide_eq_true_eq,not_or,Int.not_le,Int.not_lt] at inside
    obtain ⟨last,known⟩ := entry (i := line - 1) (by omega) (by omega)
    simp only [bind,Except.bind,pure,Except.pure,Option.getD_none]
    split
    · exact ⟨_,rfl⟩
    · simp [Report.excerpt,known,bind,Except.bind,pure,Except.pure]

theorem has_eq_of_field {v a : Value} {key : String} (h : v.field key = .ok a) (other : String) :
    ∃ b, has v other = .ok b ∧ (b → ∃ c, v.field other = .ok c) := by
  cases v with
  | record fields =>
    refine ⟨_,rfl,fun found => ?_⟩
    rw [any_eq_true] at found
    obtain ⟨e,he,same⟩ := found
    have listed : (fields.lookup other).isSome := by
      rw [lookup_isSome_iff]
      exact ⟨e,he,by simpa using Eq.symm (beq_iff_eq.1 same)⟩
    obtain ⟨c,hc⟩ := Option.isSome_iff_exists.1 listed
    exact ⟨c,by simp [Value.field,hc]⟩
  | _ => cases h

/-! ### How a run ends -/

def Gives {α : Type} (x : Pass α) (r : Outcome α) : Prop :=
  ∀ p, ∃ p', x.run p = (r,p')

namespace Gives

variable {α β : Type} {x : Pass α} {f : α → Pass β}

theorem ofOutcome (r : Outcome α) : Gives (Pass.ofOutcome r) r :=
  fun p => ⟨p,rfl⟩

theorem pure (a : α) : Gives (pure a) (.ok a) :=
  fun p => ⟨p,rfl⟩

theorem throw (e : Fault) : Gives (throw e : Pass α) (.error e) :=
  fun p => ⟨p,rfl⟩

theorem emit (text : String) : Gives (Pass.emit text) (.ok ()) :=
  fun _ => ⟨_,rfl⟩

theorem bind {a : α} {r : Outcome β} (hx : Gives x (.ok a)) (hf : Gives (f a) r) : Gives (x >>= f) r := by
  intro p
  obtain ⟨q,first⟩ := hx p
  obtain ⟨p',rest⟩ := hf q
  exact ⟨p',by rw [Pass.run_bind,first]; exact rest⟩

theorem bind_error {e : Fault} (hx : Gives x (.error e)) : Gives (x >>= f) (.error e) := by
  intro p
  obtain ⟨q,first⟩ := hx p
  exact ⟨q,by rw [Pass.run_bind,first]⟩

theorem say (level : Int) (line : String) : Gives (Pass.say level line) (.ok ()) := by
  intro p
  unfold Pass.say
  rw [Pass.run_bind,show (get : Pass Program).run p = (.ok p,p) from rfl]
  dsimp only
  split
  · exact ⟨_,rfl⟩
  · exact ⟨_,rfl⟩

theorem coloured {c : Colour} {r : Outcome α} (hx : Gives x r) : Gives (Pass.coloured c x) r := by
  refine bind (emit _) ?_
  cases r with
  | error => exact bind_error hx
  | ok a => exact bind hx (bind (emit _) (pure a))

end Gives

namespace Problem.IsWritten

variable {e : Problem} {v : Value} (h : e.IsWritten v)
include h

theorem isError_eq : Solc.isError v = .ok e.isError := by
  simp [Solc.isError,h.severity,bind,Except.bind,Problem.isError,Value.plainText,pure,Except.pure]

theorem start_eq : start v = .ok (.int e.offset) := by
  unfold start
  rw [h.located]
  cases spot : e.spot with
  | none => simp [offset,spot,bind,Except.bind,pure,Except.pure]
  | some s =>
    obtain ⟨l,location,-,start⟩ := h.spot s spot
    simp [offset,spot,location,start,bind,Except.bind]

theorem placeReport_eq {file : File} {s : Spot} (spot : e.spot = some s) :
    placeReport file v = .ok (s.text file,s.file == file.name) := by
  obtain ⟨l,location,name,start⟩ := h.spot s spot
  unfold placeReport Spot.text
  by_cases same : s.file = file.name
  · obtain ⟨text,known⟩ := exists_location (lineAndColumn file.code s.start).1
      ((lineAndColumn file.code s.start).2 + 1) (Text.lines file.shown)
    simp [location,name,start,same,known,asNumber,bind,Except.bind,pure,Except.pure,Value.plainText,Except.toOption]
  · simp [location,name,start,same,bind,Except.bind,pure,Except.pure,Value.plainText,Value.shown]
    rfl

theorem problemReport_eq (place : Option String) :
    problemReport v e.isError place = match place with
      | some t => .ok (e.report t)
      | none => .error .unassigned := by
  unfold problemReport
  cases place <;> cases fatal : e.isError <;>
    simp [h.severity,h.kind,h.message,fatal,bind,Except.bind,pure,Except.pure,Value.plainText,Problem.report,
      Problem.opening,String.append_assoc]

theorem exists_isSilent : ∃ b, isSilent v = .ok b := by
  obtain ⟨b,known,field⟩ := has_eq_of_field h.severity "errorCode"
  unfold isSilent
  cases b with
  | false => exact ⟨_,by simp [known,bind,Except.bind]; rfl⟩
  | true =>
    obtain ⟨c,code⟩ := field rfl
    exact ⟨_,by simp [known,code,bind,Except.bind]; rfl⟩

theorem gives_reportProblem (file : File) (so : Reported) :
    Gives (reportProblem file so v) (match so.after file e with
      | some so' => .ok so'
      | none => .error .unassigned) := by
  have rest (so : Reported) : Gives (do
      let report ← Pass.ofOutcome (problemReport v e.isError so.last)
      let so := { so with last := some report }
      if e.isError then return { so with fatal := so.fatal ++ report }
      if !(← Pass.ofOutcome (isSilent v)) then Pass.say 1 report
      return so) (match so.last with
        | some t => .ok { so with last := some (e.report t), fatal := so.fatal ++ if e.isError then e.report t else "" }
        | none => .error .unassigned) := by
    rw [h.problemReport_eq]
    cases so.last with
    | none => exact .bind_error (.ofOutcome _)
    | some =>
      refine .bind (.ofOutcome _) ?_
      dsimp only
      split
      · exact .pure _
      · obtain ⟨b,silent⟩ := h.exists_isSilent
        rw [silent,String.append_empty]
        refine .bind (.ofOutcome _) ?_
        cases b with
        | true => exact .pure _
        | false => exact .bind (.say _ _) (.pure _)
  unfold reportProblem
  rw [h.isError_eq,h.located]
  refine .bind (.ofOutcome _) (.coloured (.bind (.ofOutcome _) ?_))
  cases spot : e.spot with
  | none =>
    have same : so.failed = (so.failed || (e.isError && e.isIn file.name)) := by simp [Problem.isIn,spot]
    refine .bind (.pure so) ?_
    convert rest so using 1
    unfold Reported.after
    rw [spot,← same]
    cases so.last <;> rfl
  | some =>
    dsimp only
    rw [Option.isSome_some,if_pos rfl,h.placeReport_eq spot]
    refine .bind (.ofOutcome _) (.bind (.pure _) ?_)
    convert rest _ using 1
    simp [Reported.after,Problem.isIn,spot,Bool.and_comm]

end Problem.IsWritten

variable {es : List Problem}

theorem mapM_asNumber (zs : List (Problem × Value)) : ((zs.map fun z => Value.int z.1.offset).zip (zs.map (·.2))).mapM
    (fun (k,q) => do return (← asNumber k,q)) = .ok (zs.map fun z => (z.1.offset,z.2)) := by
  rw [Outcome.mapM_eq_ok,zip_map',forall₂_map_left_iff,forall₂_map_right_iff,forall₂_same]
  exact fun z _ => rfl

theorem ordered_eq {vs : List Value} (h : Forall₂ Problem.IsWritten es vs) :
    ∃ ws, ordered vs = .ok ws ∧ Forall₂ Problem.IsWritten (inOrder es) ws := by
  have starts : vs.mapM start = .ok (es.map fun e => .int e.offset) := by
    rw [Outcome.mapM_eq_ok,forall₂_map_right_iff]
    exact h.flip.imp fun _ _ written => written.start_eq
  unfold ordered
  rw [starts]
  by_cases short : vs.length < 2
  · refine ⟨vs,by simp [short,bind,Except.bind,pure,Except.pure],?_⟩
    have sorted : inOrder es = es := by
      have few := h.length_eq ▸ short
      rcases es with _ | ⟨e,_ | ⟨_,es⟩⟩
      · exact mergeSort_nil
      · exact mergeSort_singleton e
      · simp only [length_cons] at few
        omega
    rw [sorted]
    exact h
  · -- Entries and values are sorted side by side.
    let zs := es.zip vs
    have firsts : zs.map (·.1) = es := map_fst_zip (Nat.le_of_eq h.length_eq)
    have seconds : zs.map (·.2) = vs := map_snd_zip (Nat.le_of_eq h.length_eq.symm)
    have written : ∀ z ∈ zs, z.1.IsWritten z.2 := fun z hz => forall₂_zip h hz
    have keyed := mapM_asNumber zs
    rw [seconds,show (zs.map fun z => Value.int z.1.offset) = es.map fun e => .int e.offset by rw [← firsts,map_map]; rfl] at keyed
    refine ⟨(zs.mergeSort fun a b => a.1.offset ≤ b.1.offset).map (·.2),?_,?_⟩
    · simp only [short,bind,Except.bind,if_false,pure,Except.pure] at keyed ⊢
      rw [keyed]
      dsimp only
      rw [← map_mergeSort (r := fun a b => decide (a.1.offset ≤ b.1.offset)) (fun _ _ _ _ => rfl),map_map]
      rfl
    · have sorted : inOrder es = (zs.mergeSort fun a b => a.1.offset ≤ b.1.offset).map (·.1) := by
        rw [map_mergeSort (s := fun a b : Problem => decide (a.offset ≤ b.offset)) fun _ _ _ _ => rfl,firsts, inOrder]
      rw [sorted,forall₂_map_left_iff,forall₂_map_right_iff,forall₂_same]
      exact fun z hz => written z (mem_mergeSort.1 hz)

/-- What is reported about the entries of an output. -/
def summary (file : File) (es : List Problem) : Option Reported :=
  (inOrder es).foldlM (Reported.after file) {}

def verdict (file : File) (es : List Problem) : Outcome Unit :=
  match summary file es with
  | some so => if so.failed then .error (.solidityErrors so.fatal) else .ok ()
  | none => .error .unassigned

theorem gives_foldlM (file : File) {vs : List Value} (h : Forall₂ Problem.IsWritten es vs)
    (so : Reported) : Gives (vs.foldlM (reportProblem file) so) (match es.foldlM (Reported.after file) so with
      | some so' => .ok so'
      | none => .error .unassigned) := by
  induction h generalizing so with
  | nil => exact .pure so
  | @cons e v es vs written _ ih =>
    have first := written.gives_reportProblem file so
    rw [foldlM_cons,foldlM_cons]
    cases next : so.after file e with
    | none =>
      rw [next] at first
      exact first.bind_error
    | some so' =>
      rw [next] at first
      exact first.bind (ih so')

theorem gives_reportAll (file : File) {output : Value} (h : Lists output es) :
    Gives (reportAll file output) (verdict file es) := by
  unfold reportAll
  obtain ⟨void,rfl⟩ | ⟨vs,full,field,written⟩ := h
  · have nothing : verdict file [] = .ok () := by simp [verdict,summary,inOrder]
    rw [void,nothing]
    exact .bind (.ofOutcome _) (.pure ())
  · obtain ⟨ws,ordered,written⟩ := ordered_eq written
    rw [full,field]
    refine .bind (.ofOutcome _) (.bind (.say _ _) (.bind (.ofOutcome _) ?_))
    dsimp only
    rw [ordered]
    refine .bind (.ofOutcome _) ?_
    have reported := gives_foldlM file written {}
    unfold verdict summary
    cases found : (inOrder es).foldlM (Reported.after file) {} with
    | none =>
      rw [found] at reported
      exact reported.bind_error
    | some so =>
      rw [found] at reported
      refine reported.bind (.bind (.say _ _) ?_)
      dsimp only
      cases so.failed with
      | true => exact .throw _
      | false => exact .pure ()

/-! ### Which runs report all errors -/

section Fold

variable {file : File} {es : List Problem} {so so' : Reported}

theorem isSome_foldlM (h : so.last.isSome) : (es.foldlM (Reported.after file) so).isSome := by
  induction es generalizing so with
  | nil => rfl
  | cons e _ ih =>
    obtain ⟨t,last⟩ := Option.isSome_iff_exists.1 h
    rw [foldlM_cons]
    cases spot : e.spot <;>
      · simp only [Reported.after,spot,last,Option.map_some,Option.bind_eq_bind,Option.bind_some]
        exact ih rfl

theorem isSome_summary : (es.foldlM (Reported.after file) {}).isSome ↔ ∀ e, es.head? = some e → e.spot.isSome := by
  cases es with
  | nil => simp
  | cons e =>
    rw [foldlM_cons]
    cases spot : e.spot with
    | none => simp [Reported.after,spot]
    | some =>
      simp only [Reported.after,spot,Option.map_some,Option.bind_eq_bind,Option.bind_some,head?_cons,
        Option.some.injEq,forall_eq',Option.isSome_some,iff_true]
      exact isSome_foldlM rfl

theorem after_eq_some {e : Problem} (h : so.after file e = some so') : ∃ place,
    (e.spot.map (·.text file)).or so.last = some place ∧ so'.last = some (e.report place) ∧
      so'.fatal = so.fatal ++ (if e.isError then e.report place else "") ∧
      so'.failed = (so.failed || (e.isError && e.isIn file.name)) := by
  obtain ⟨place,known,rfl⟩ := Option.map_eq_some_iff.1 h
  refine ⟨place,?_,rfl,rfl,rfl⟩
  cases spot : e.spot <;> simp_all

theorem failed_foldlM (h : es.foldlM (Reported.after file) so = some so') :
    so'.failed = (so.failed || es.any fun e => e.isError && e.isIn file.name) := by
  induction es generalizing so with
  | nil =>
    cases h
    simp
  | cons _ _ ih =>
    obtain ⟨next,first,rest⟩ := Option.bind_eq_some_iff.1 h
    obtain ⟨-,-,-,-,failed⟩ := after_eq_some first
    rw [ih rest,failed,any_cons,Bool.or_assoc]

/-- What is said about an entry with a place before its message. -/
def Problem.lead (file : File) (e : Problem) : String :=
  e.opening ((e.spot.map (·.text file)).getD "")

theorem fatal_foldlM (located : ∀ e ∈ es, e.isError → e.spot.isSome)
    (h : es.foldlM (Reported.after file) so = some so') :
    so'.fatal = so.fatal ++ String.join ((es.filter (·.isError)).map fun e => e.lead file ++ e.message ++ "\n") := by
  induction es generalizing so with
  | nil =>
    cases h
    simp
  | cons e _ ih =>
    rw [forall_mem_cons] at located
    obtain ⟨next,first,rest⟩ := Option.bind_eq_some_iff.1 h
    obtain ⟨place,known,-,fatal,-⟩ := after_eq_some first
    rw [ih located.2 rest,fatal,filter_cons]
    cases error : e.isError with
    | false => simp
    | true =>
      obtain ⟨s,spot⟩ := Option.isSome_iff_exists.1 (located.1 error)
      rw [spot,Option.map_some,Option.some_or] at known
      cases known
      simp [Problem.lead,Problem.report,spot,String.append_assoc]

end Fold

def Problem.saying (e : Problem) (m : String) : Problem :=
  { e with message := m }

def reworded (es : List Problem) (ms : List String) : List Problem :=
  List.zipWith Problem.saying es ms

def errorMessages (es : List Problem) : List String :=
  ((inOrder es).filter (·.isError)).map (·.message)

/-- A text that has each message once, in their order, and nothing else of them. -/
def around (first : String) (rest ms : List String) : String :=
  first ++ String.join (List.zipWith (· ++ ·) ms rest)

/-- Whatever is said in the entries: checking the file stops exactly if there is an error, and then the text
has the message of every error once, by their places, between texts that do not depend on messages. -/
def ReportsErrors (name text : String) (es : List Problem) : Prop :=
  ∃ first rest, rest.length = (es.filter (·.isError)).length ∧
    ∀ ms, ms.length = es.length → ∀ a : Answer, Lists a.output (reworded es ms) → ∀ p,
      ((∃ m p', (check name text a).run p = (.error (.solidityErrors m),p')) ↔ ∃ e ∈ es, e.isError) ∧
      ∀ m p', (check name text a).run p = (.error (.solidityErrors m),p') →
        m = around first rest (errorMessages (reworded es ms))

/-- There are errors in the file, every error has a place, and so has the first entry. -/
structure Traceable (file : String) (es : List Problem) : Prop where
  inside : ∃ e ∈ es, e.isError ∧ e.isIn file
  located : ∀ e ∈ es, e.isError → e.spot.isSome
  first : ∀ e, (inOrder es).head? = some e → e.spot.isSome

theorem verdict_eq_error {file : File} {es : List Problem} {m : String} : verdict file es = .error (.solidityErrors m) ↔
      ∃ so, summary file es = some so ∧ so.failed ∧ so.fatal = m := by
  unfold verdict
  cases summary file es with
  | none => simp
  | some so => cases failed : so.failed <;> simp [failed]

theorem map_saying_inOrder (es : List Problem) (m : String) : (inOrder es).map (·.saying m) = inOrder (es.map (·.saying m)) :=
  map_mergeSort fun _ _ _ _ => rfl

section Rewording

variable {α : Type} {g : Problem → α} {es : List Problem} {ms : List String}

theorem map_inOrder_reworded (plain : ∀ e m, g (e.saying m) = g e) (length : ms.length = es.length) :
    (inOrder (reworded es ms)).map g = (inOrder es).map g := by
  have silent : (reworded es ms).map (·.saying "") = es.map (·.saying "") := by
    induction es generalizing ms with
    | nil => cases ms <;> rfl
    | cons e _ ih =>
      cases ms with
      | nil => cases length
      | cons => exact congrArg (e.saying "" :: ·) (ih (Nat.succ.inj length))
  have split : g = g ∘ (·.saying "") := funext fun e => (plain e "").symm
  rw [split,← map_map,map_saying_inOrder,silent,← map_saying_inOrder,map_map]

theorem forall_reworded {P : Problem → Prop} (plain : ∀ e m, P (e.saying m) ↔ P e) (length : ms.length = es.length) :
    (∀ e ∈ reworded es ms, P e) ↔ ∀ e ∈ es, P e := by
  have all (es : List Problem) : (∀ e ∈ es, P e) ↔ ∀ q ∈ (inOrder es).map P, q := by
    simp only [forall_mem_map,inOrder,mem_mergeSort]
  rw [all,map_inOrder_reworded (fun e m => propext (plain e m)) length,← all]

theorem Traceable.reword {file : String} (h : Traceable file es) (length : ms.length = es.length) :
    Traceable file (reworded es ms) := by
  refine ⟨?_,?_,?_⟩
  · have again := not_congr (forall_reworded (P := fun e => ¬ (e.isError ∧ e.isIn file)) (fun _ _ => Iff.rfl) length)
    simp only [not_forall,not_not,exists_prop] at again
    exact again.2 h.inside
  · exact (forall_reworded (P := fun e => e.isError → e.spot.isSome) (fun _ _ => Iff.rfl) length).2 h.located
  · intro e head
    have spots := map_inOrder_reworded (g := fun e => e.spot.isSome) (fun _ _ => rfl) length
    have eq := congrArg List.head? spots
    rw [head?_map,head,head?_map,Option.map_some] at eq
    obtain ⟨e',head',same⟩ := Option.map_eq_some_iff.1 eq.symm
    exact same ▸ h.first e' head'

end Rewording

variable {name text : String} {es : List Problem}

theorem exists_around (leads : List String) : ∃ first rest, rest.length = leads.length ∧ ∀ ms, ms.length = leads.length →
    String.join (List.zipWith (fun lead m => lead ++ m ++ "\n") leads ms) = around first rest ms := by
  induction leads with
  | nil =>
    refine ⟨"",[],rfl,fun ms length => ?_⟩
    cases length_eq_zero_iff.1 length
    rfl
  | cons lead _ ih =>
    obtain ⟨first,rest,length,said⟩ := ih
    refine ⟨lead,("\n" ++ first) :: rest,congrArg Nat.succ length,fun ms eq => ?_⟩
    cases ms with
    | nil => cases eq
    | cons _ ms =>
      rw [zipWith_cons_cons,String.join_cons,said ms (Nat.succ.inj eq)]
      simp [around,String.append_assoc]

theorem Traceable.reportsErrors (h : Traceable name es) :
    ReportsErrors name text es := by
  let file : File := { name, code := Text.readBack text, shown := text }
  obtain ⟨first,rest,length,said⟩ := exists_around (((inOrder es).filter (·.isError)).map (·.lead file))
  have perm : ((inOrder es).filter (·.isError)).Perm (es.filter (·.isError)) := (mergeSort_perm _ _).filter _
  rw [length_map,perm.length_eq] at length
  refine ⟨first,rest,length,fun ms eq a listed p => ?_⟩
  have traceable := h.reword eq
  have defined : (summary file (reworded es ms)).isSome := isSome_summary.2 traceable.first
  obtain ⟨so,found⟩ := Option.isSome_iff_exists.1 defined
  have located : ∀ e ∈ inOrder (reworded es ms), e.isError → e.spot.isSome := fun e he =>
    traceable.located e (mem_mergeSort.1 he)
  have failed : so.failed := by
    obtain ⟨e,he,inside⟩ := traceable.inside
    rw [failed_foldlM found,Bool.false_or,any_eq_true]
    exact ⟨e,mem_mergeSort.2 he,Bool.and_eq_true_iff.2 inside⟩
  have raised : verdict file (reworded es ms) = .error (.solidityErrors so.fatal) :=
    verdict_eq_error.2 ⟨so,found,failed,rfl⟩
  have written : so.fatal = around first rest (errorMessages (reworded es ms)) := by
    have same := map_inOrder_reworded (g := fun e => (e.isError,e.lead file)) (fun _ _ => rfl) eq
    have leads : ((inOrder (reworded es ms)).filter (·.isError)).map (·.lead file) =
        ((inOrder es).filter (·.isError)).map (·.lead file) := by
      have kept := congrArg (fun ps => (ps.filter (·.1)).map (·.2)) same
      simpa [filter_map,Function.comp_def] using kept
    have count := congrArg List.length leads
    rw [← said _ (by simpa [errorMessages] using count),← leads,fatal_foldlM located found,errorMessages,
      zipWith_map,zipWith_self]
    exact String.empty_append
  obtain ⟨p',run⟩ := gives_reportAll file listed p
  have run : (check name text a).run p = (.error (.solidityErrors so.fatal),p') := raised ▸ run
  refine ⟨⟨fun _ => ?_,fun _ => ⟨_,_,run⟩⟩,fun m q run' => ?_⟩
  · exact h.inside.imp fun e he => ⟨he.1,he.2.1⟩
  · rw [run] at run'
    cases run'
    exact written

/-! ### Messages that are repeated -/

theorem length_report (e : Problem) (place : String) :
    (e.report place).length = (e.opening "").length + place.length + e.message.length + 1 := by
  simp only [Problem.report,Problem.opening,String.length_append,String.length_empty,show "\n".length = 1 from rfl]
  omega

/-- An error without a place repeats the report before it: if all messages grow by a character, the text grows by
more than a character for every error. -/
theorem length_fatal {file : File} {so₀ so₁ r₀ r₁ : Reported}
    (run₀ : (es.map (·.saying "")).foldlM (Reported.after file) so₀ = some r₀)
    (run₁ : (es.map (·.saying "x")).foldlM (Reported.after file) so₁ = some r₁)
    (last : ∀ t₀ t₁, so₀.last = some t₀ → so₁.last = some t₁ → t₀.length < t₁.length) {k : Nat}
    (fatal : so₀.fatal.length + k ≤ so₁.fatal.length) :
    r₀.fatal.length + k + (es.filter (·.isError)).length +
      (if es.any (fun e => e.isError && e.spot.isNone) then 1 else 0) ≤ r₁.fatal.length := by
  induction es generalizing so₀ so₁ k with
  | nil =>
    cases run₀
    cases run₁
    simpa using fatal
  | cons e _ ih =>
    obtain ⟨next₀,first₀,rest₀⟩ := Option.bind_eq_some_iff.1 run₀
    obtain ⟨next₁,first₁,rest₁⟩ := Option.bind_eq_some_iff.1 run₁
    obtain ⟨place₀,known₀,last₀,fatal₀,-⟩ := after_eq_some first₀
    obtain ⟨place₁,known₁,last₁,fatal₁,-⟩ := after_eq_some first₁
    dsimp only at known₀ last₀ fatal₀ known₁ last₁ fatal₁
    have longer : ((e.saying "").report place₀).length + 1 + (if e.spot.isNone then 1 else 0) ≤
        ((e.saying "x").report place₁).length := by
      have place : place₀.length + (if e.spot.isNone then 1 else 0) ≤ place₁.length := by
        cases spot : e.spot with
        | none =>
          simp only [Problem.saying,spot,Option.map_none,Option.none_or] at known₀ known₁
          exact last _ _ known₀ known₁
        | some =>
          simp only [Problem.saying,spot,Option.map_some,Option.some_or,Option.some.injEq] at known₀ known₁
          simp [← known₀,← known₁]
      have opening : (e.saying "").opening "" = (e.saying "x").opening "" := rfl
      have said₀ : (e.saying "").message.length = 0 := String.length_empty
      have said₁ : (e.saying "x").message.length = 1 := show "x".length = 1 by decide
      rw [length_report,length_report,opening,said₀,said₁]
      omega
    have behind : ∀ t₀ t₁, next₀.last = some t₀ → next₁.last = some t₁ → t₀.length < t₁.length := by
      intro t₀ t₁ h₀ h₁
      rw [last₀,Option.some.injEq] at h₀
      rw [last₁,Option.some.injEq] at h₁
      subst h₀ h₁
      omega
    cases error : e.isError with
    | false =>
      have quiet (m : String) : (e.saying m).isError = false := error
      have shorter : next₀.fatal.length + k ≤ next₁.fatal.length := by
        rw [fatal₀,fatal₁,quiet,quiet]
        simpa using fatal
      have more := ih rest₀ rest₁ behind shorter
      simpa [error] using more
    | true =>
      have loud (m : String) : (e.saying m).isError := error
      have shorter : next₀.fatal.length + (k + 1 + if e.spot.isNone then 1 else 0) ≤ next₁.fatal.length := by
        rw [fatal₀,fatal₁,loud,loud,if_pos rfl,if_pos rfl,String.length_append,String.length_append]
        omega
      have more := ih rest₀ rest₁ behind shorter
      rw [filter_cons,error,if_pos rfl,length_cons,any_cons,error,Bool.true_and]
      cases unplaced : e.spot.isNone with
      | false =>
        rw [unplaced,if_neg (by simp)] at more
        rw [Bool.false_or]
        omega
      | true =>
        rw [unplaced,if_pos rfl] at more
        rw [Bool.true_or,if_pos rfl]
        omega

theorem length_around (first : String) (rest : List String) (m : String) :
    (around first rest (List.replicate rest.length m)).length = (around first rest (List.replicate rest.length "")).length +
      rest.length * m.length := by
  have step (rest : List String) : (String.join (List.zipWith (· ++ ·) (List.replicate rest.length m) rest)).length =
      (String.join (List.zipWith (· ++ ·) (List.replicate rest.length "") rest)).length + rest.length * m.length := by
    induction rest with
    | nil => simp
    | cons _ _ ih =>
      simp only [length_cons,replicate_succ,zipWith_cons_cons,String.join_cons,String.length_append,
        ih,String.length_empty,Nat.succ_mul]
      omega
  simp only [around,String.length_append,step]
  omega

theorem errorMessages_saying (es : List Problem) (m : String) :
    errorMessages (es.map (·.saying m)) = List.replicate (es.filter (·.isError)).length m := by
  have perm : (inOrder (es.map (·.saying m))).Perm (es.map (·.saying m)) := mergeSort_perm _ _
  rw [eq_replicate_iff,errorMessages,length_map,(perm.filter _).length_eq,filter_map,length_map]
  refine ⟨rfl,fun b hb => ?_⟩
  obtain ⟨e,he,rfl⟩ := mem_map.1 hb
  obtain ⟨e',-,rfl⟩ := mem_map.1 (perm.mem_iff.1 (mem_filter.1 he).1)
  rfl

theorem ReportsErrors.traceable (h : ReportsErrors name text es) (error : ∃ e ∈ es, e.isError) : Traceable name es := by
  let file : File := { name, code := Text.readBack text, shown := text }
  obtain ⟨first,rest,length,told⟩ := h
  have uniform (m : String) : reworded es (List.replicate es.length m) = es.map (·.saying m) := by
    rw [reworded,← map_const',zipWith_map_right,zipWith_self]
  -- What is told about entries that all say the same.
  have raised (m : String) : ∃ so, ((inOrder es).map (·.saying m)).foldlM (Reported.after file) {} = some so ∧
      so.failed ∧ so.fatal = around first rest (List.replicate rest.length m) := by
    have lists := lists_record (reworded es (List.replicate es.length m))
    obtain ⟨p',run⟩ := gives_reportAll file lists {}
    obtain ⟨iff,said⟩ := told _ length_replicate { output := .record _ } lists {}
    obtain ⟨t,q,run'⟩ := iff.2 error
    have written := said t q run'
    obtain ⟨same,-⟩ := Prod.mk.inj (run.symm.trans run')
    obtain ⟨so,found,failed,rfl⟩ := verdict_eq_error.1 same
    rw [uniform,errorMessages_saying,← length] at written
    rw [uniform,summary,← map_saying_inOrder] at found
    exact ⟨so,found,failed,written⟩
  obtain ⟨so₀,run₀,failed,fatal₀⟩ := raised ""
  obtain ⟨so₁,run₁,-,fatal₁⟩ := raised "x"
  have perm : (inOrder es).Perm es := mergeSort_perm _ _
  refine ⟨?_,fun e he error' => ?_,fun e head => ?_⟩
  · rw [failed_foldlM run₀,Bool.false_or,any_map,any_eq_true] at failed
    obtain ⟨e,he,inside⟩ := failed
    exact ⟨e,perm.mem_iff.1 he,Bool.and_eq_true_iff.1 inside⟩
  · have more := length_fatal run₀ run₁ (fun _ _ void => by cases void) (k := 0) (le_rfl)
    rw [fatal₀,fatal₁,length_around first rest "x",(perm.filter _).length_eq,← length] at more
    by_contra unplaced
    have found : (inOrder es).any (fun e => e.isError && e.spot.isNone) = true := by
      rw [any_eq_true]
      exact ⟨e,perm.mem_iff.2 he,by simpa [error'] using unplaced⟩
    rw [found,if_pos rfl,show "x".length = 1 from rfl] at more
    omega
  · have found := isSome_summary.1 (Option.isSome_of_eq_some run₀)
    exact found (e.saying "") (by rw [head?_map,head]; rfl)

/-- Every error of the compiler is reported, once and by its place, exactly if there is none, or if one of them
stands in the checked file, all of them have places, and the first of all entries has one. -/
theorem errors_reported_iff (name text : String) (es : List Problem) :
    ReportsErrors name text es ↔ (∀ e ∈ es, e.isError = false) ∨ Traceable name es := by
  constructor
  · intro h
    by_cases error : ∃ e ∈ es, e.isError
    · exact .inr (h.traceable error)
    · exact .inl fun e he => Bool.eq_false_iff.2 fun yes => error ⟨e,he,yes⟩
  · rintro (none | traceable)
    · refine ⟨"",List.replicate (es.filter (·.isError)).length "",length_replicate,fun ms eq a listed p => ?_⟩
      have quiet : ∀ e ∈ reworded es ms, e.isError = false := (forall_reworded (fun _ _ => Iff.rfl) eq).2 none
      have silent {m : String} {p' : Program} : (check name text a).run p ≠ (.error (.solidityErrors m),p') := by
        intro run
        obtain ⟨q,run'⟩ := gives_reportAll _ listed p
        obtain ⟨same,-⟩ := Prod.mk.inj (run'.symm.trans run)
        obtain ⟨so,found,failed,-⟩ := verdict_eq_error.1 same
        rw [failed_foldlM found,Bool.false_or,any_eq_true] at failed
        obtain ⟨e,he,inside⟩ := failed
        rw [quiet e (mem_mergeSort.1 he)] at inside
        cases inside
      refine ⟨⟨fun ⟨m,p',run⟩ => absurd run silent,fun ⟨e,he,error⟩ => ?_⟩,fun m p' run => absurd run silent⟩
      rw [none e he] at error
      cases error
    · exact traceable.reportsErrors

/-- An error in a file that is imported is not reported: the check ends as if there were none. -/
theorem imported_error_passes :
    let es := [{ severity := "error", kind := "TypeError", message := "m", spot := some ⟨"b.sol",0⟩ }]
    (∀ a p, Lists a.output es → ∃ p', (check "a.sol" "contract C \x7b\x7d" a).run p = (.ok (),p')) ∧
      ¬ ReportsErrors "a.sol" "contract C \x7b\x7d" es := by
  intro es
  constructor
  · intro a p listed
    obtain ⟨p',run⟩ := gives_reportAll _ listed p
    refine ⟨p',run.trans (congrArg (·,p') ?_)⟩
    simp [es,verdict,summary,inOrder,Reported.after,Problem.isIn]
  · rw [errors_reported_iff]
    rintro (none | traceable)
    · exact absurd (none _ mem_cons_self) (by decide)
    · obtain ⟨e,he,-,inside⟩ := traceable.inside
      rw [mem_singleton.1 he] at inside
      exact absurd inside (by decide)

end Confidential.Solc
