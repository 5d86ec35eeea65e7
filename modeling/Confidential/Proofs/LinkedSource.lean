import Confidential.Proofs.ElementTargets

/-!
Linked programs: a source with the places of its nodes and the meaning of its names, about whose types and
effects nothing is known yet.
-/

namespace Confidential

open Node Pass

structure LinkedSource (p : Program) (first : Nat) (root : Node) : Prop where
  holds : Holds p first root
  proper : root.Proper
  source : root.role = .source
  root_eq : p.root = root.id
  types : p.types = {}
  modified : p.modified = {}
  read : p.read = {}
  states : p.before = {} ∧ p.after = {}
  tabled : ∀ m ∈ root.preorder, m.role ≠ .source → Tabled p m
  numbered : p.Numbered
  elements : ∀ i base key, .index i base key ∈ root.preorder → p.HasElement (.index i base key)

/-- Programs that know the built-in definitions, and nothing else. -/
structure Initial (p : Program) : Prop where
  equipped : Equipped p
  quiet : Quiet {} p
  fresh : p.Fresh

theorem initial_base (settings : Settings) : Initial { Globals.base with settings } :=
  ⟨equipped_settings settings,quiet_base settings,fresh_base settings⟩

theorem Initial.printed {p : Program} (h : Initial p) (output : String) (files : List (String × String)) :
    Initial { p with output, files } where
  equipped := { h.equipped with
    tidy := { h.equipped.tidy with }
    names := fun e he => (h.equipped.names e he).imp fun _ hd => { hd with } }
  quiet := { h.quiet with }
  fresh := h.fresh.of_eq rfl rfl

section Steps

variable {start q r p : Program}

variable {output text : String} {files : List (String × String)}

theorem Placed.linked {root : Node} (h : Placed start q root) (equipped : Equipped start) (quiet : Quiet {} q)
    (fresh : q.Fresh) (run : Runs (linkAll root) q () p) : LinkedSource p start.next root := by
  obtain ⟨_,r,filled,linked⟩ := runs_bind.1 run
  have scope := h.scoped equipped filled
  have fresh := fresh_fillNames root q () r filled fresh
  have quiet : Quiet {} r := Trans.trans quiet (Quiet.fillNames _ _ _ _ filled)
  have kept : Retains (· ∈ root.numbers) r p := Retains.linkNames (fun _ hk => hk) _ _ _ linked
  have under : root.Under r.next := fun m hm => by
    obtain zero | pos := Nat.eq_zero_or_pos m.id
    · exact zero ▸ fresh.pos
    · exact (scope.holds.range m hm (isLeaflet_of_id pos)).2
  have elements := elementsLinked_linkNames fresh quiet.types under scope.holds.nodup linked
  have last : Quiet {} p := Trans.trans quiet kept.toQuiet
  exact {
    holds := scope.holds.retain kept
    proper := scope.proper
    source := scope.source
    root_eq := kept.root.trans scope.root_eq
    types := last.types
    modified := last.modified
    read := last.read
    states := Prod.mk.inj last.states
    tabled := fun m hm outer => (scope.tabled m hm outer).congr (by rw [kept.names])
    numbered := last.numbered (by simp [Program.Numbered])
    elements := elements.elements root (List.mem_singleton_self root) }

/-- A source that was read and placed. What is printed and written in between does not matter. -/
theorem placed_of_runs (equipped : Equipped start)
    (loaded : Runs (load text) start () q) (linked : Runs (linkParents q.tree) { q with output, files } () r) :
    Placed start r q.tree := by
  obtain ⟨n,unit,loaded⟩ := runs_ofOutcome_bind.1 loaded
  obtain ⟨root,q',known,loaded⟩ := runs_bind.1 loaded
  obtain rfl := runs_modify.1 loaded
  rw [tree_registered equipped.tidy.pos unit known] at linked ⊢
  obtain ⟨l,recorded,linked⟩ := runs_ask_bind.1 linked
  obtain rfl := runs_modify.1 linked
  have placed := placed_withSource equipped unit known recorded
  exact { placed with holds := { placed.holds with }, ext := { placed.ext with } }

theorem Initial.placed (h : Initial start)
    (loaded : Runs (load text) start () q) (placed : Runs (linkParents q.tree) { q with output, files } () r) :
    Quiet {} r ∧ r.Fresh := by
  have before : Quiet {} q := Trans.trans h.quiet (Quiet.load text _ _ _ loaded)
  have printed : Quiet {} { q with output, files } := { before with }
  refine ⟨Trans.trans printed (Quiet.linkParents _ _ _ placed),?_⟩
  obtain ⟨l,-,rest⟩ := runs_ask_bind.1 placed
  rw [← runs_modify.1 rest]
  exact (fresh_load text _ _ _ loaded h.fresh).of_eq rfl rfl

theorem Initial.linkedSource (h : Initial start)
    (loaded : Runs (load text) start () q) (placed : Runs (linkParents q.tree) { q with output, files } () r)
    (run : Runs (linkAll q.tree) r () p) : LinkedSource p start.next q.tree := by
  obtain ⟨quiet,fresh⟩ := h.placed loaded placed
  exact (placed_of_runs h.equipped loaded placed).linked h.equipped quiet fresh run

end Steps

theorem linkedSource_of_runs {text : String} {settings : Settings} {p : Program}
    (run : Runs (loadLinked text) { Globals.base with settings } () p) :
    ∃ root, LinkedSource p Globals.base.next root := by
  obtain ⟨_,q,loaded,run⟩ := runs_bind.1 run
  replace run := runs_get_bind.1 run
  obtain ⟨_,r,placed,run⟩ := runs_bind.1 run
  exact ⟨q.tree,(initial_base settings).linkedSource loaded placed run⟩

end Confidential
