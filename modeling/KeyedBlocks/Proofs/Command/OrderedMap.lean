import KeyedBlocks.Proofs.Command.Carried
import KeyedBlocks.Proofs.Command.HexArguments
import KeyedBlocks.Proofs.Command.Opened

/-!
Commands as an ordered map. Every command opens the database anew, finds there what the commands
before it have left, and leaves what it did. So the tables are always what the log of all deeds
leaves: keys with a common address have one value, the last one that was put, and a scan lists the
keys that no delete has reached, in order.
-/
namespace KeyedBlocks

/-- The tables that deeds leave are all there. -/
theorem Tables.afterDeeds_complete (log : List Deed) :
    (empty.afterDeeds log).isIncomplete = false := by
  obtain ⟨rows, entries, htables, _⟩ := afterDeeds_leftBy log
  rw [htables]
  rfl

/-- Commands that succeeded, each on a connection of its own, have done the deeds of a log to the
database at a place, which was empty at first. -/
inductive Written (place : TreePath) : FileTree → List Deed → Prop
  | fresh {tree : FileTree} {tables : Tables} (hholds : tree.Holds place tables)
      (hempty : tables.migrate = .empty) : Written place tree []
  | command {tree : FileTree} {log : List Deed} (h : Written place tree log) (color : Bool)
      (i : Invocation) (huses : i.Uses tree place)
      (hok : (i.run color tree.files).report.errors = []) :
      Written place (tree.apply (i.run color tree.files).changes) (log ++ i.command.deeds)

/-- The database at a place has what a log leaves, each key under the address that it derives to.
Its file is there as soon as the log has a deed. -/
structure Carries (tree : FileTree) (place : TreePath) (log : List Deed) : Prop where
  holds : ∃ tables, tree.Holds place tables ∧ tables.migrate = Tables.empty.afterDeeds log ∧
    (log ≠ [] → tables = Tables.empty.afterDeeds log)
  derived : ∀ deed ∈ log, deed.Derived

namespace Carries

variable {tree : FileTree} {place : TreePath} {log : List Deed} {i : Invocation}
  {d : SqlDatabase} {c : Connection} {changes : List FileChange}

theorem fresh {tables : Tables} (hholds : tree.Holds place tables)
    (hempty : tables.migrate = .empty) : Carries tree place [] where
  holds := ⟨tables, hholds, hempty, fun hdeeds => absurd rfl hdeeds⟩
  derived _ hmem := absurd hmem List.not_mem_nil

/-- A new connection has the tables that the log leaves. -/
theorem tables_eq (h : Carries tree place log) (hopens : i.Opens tree place d c changes) :
    c.database.tables = Tables.empty.afterDeeds log := by
  obtain ⟨tables, hholds, hmigrate, _⟩ := h.holds
  obtain ⟨path, found, readOnly, _, _, hfound, _, _, hdatabase⟩ := hopens.connected
  rw [hdatabase, hfound.unique hholds]
  exact hmigrate

theorem connected (h : Carries tree place log) (hopens : i.Opens tree place d c changes) :
    Connected (c.site d) log := by
  have htables : (c.site d).backend.tables = _ := h.tables_eq hopens
  obtain ⟨path, found, readOnly, _, _, _, _, _, hdatabase⟩ := hopens.connected
  obtain ⟨rows, entries, hrows, hleft⟩ := Tables.afterDeeds_leftBy log
  refine ⟨?_, ?_, ⟨_, rfl⟩, ⟨rows, entries, htables.trans hrows, hleft⟩, h.derived⟩
  · rw [Connection.site, hdatabase]
  · rw [Connection.site, hdatabase]

/-- A command that succeeds adds its deeds. -/
theorem command (h : Carries tree place log) {color : Bool} (huses : i.Uses tree place)
    (hok : (i.run color tree.files).report.errors = []) :
    Carries (tree.apply (i.run color tree.files).changes) place (log ++ i.command.deeds) := by
  obtain ⟨d, c, changes, hopens⟩ := huses.opens
  rw [hopens.run_eq] at hok ⊢
  have hlog : Tables.empty.afterDeeds (log ++ i.command.deeds) =
      (Tables.empty.afterDeeds log).afterDeeds i.command.deeds := List.foldl_append
  have hfinal : (i.command.run color d (c.site d)).1.backend.tables =
      Tables.empty.afterDeeds (log ++ i.command.deeds) := by
    rw [hlog, ← h.tables_eq hopens]
    exact Command.tables_of_success hok
  refine ⟨⟨_, hopens.closed _, ?_, fun _ => hfinal⟩, fun deed hmem => ?_⟩
  · rw [hfinal]
    exact Connection.migrate_complete (Tables.afterDeeds_complete _)
  · rcases List.mem_append.1 hmem with hearlier | hnew
    · exact h.derived deed hearlier
    · exact i.command.deeds_derived deed hnew

/-- Once there is a deed, any plain target will do. -/
theorem uses_of_plain (h : Carries tree place log) (hdeeds : log ≠ []) {t : Target}
    {config : SqlConfig} (hsettings : i.settings tree.files = .ok config)
    (ht : i.target? tree.files = some t) (hplain : t.Plain)
    (hplace : tree.databasePath? t.path = some place)
    (hwait : Connection.checkBusyWait config = .ok ()) : i.Uses tree place := by
  obtain ⟨tables, hholds, _, hfile⟩ := h.holds
  obtain rfl := hfile hdeeds
  have hcomplete := Tables.afterDeeds_complete log
  have hthere : Tables.empty.afterDeeds log ≠ .absent := by
    intro habsent
    rw [habsent] at hcomplete
    cases hcomplete
  exact i.uses_of_plain hsettings ht hplain hplace hwait (hholds.databaseAt hthere) hcomplete

end Carries

theorem Written.carries {tree : FileTree} {place : TreePath} {log : List Deed}
    (h : Written place tree log) : Carries tree place log := by
  induction h with
  | fresh hholds hempty => exact .fresh hholds hempty
  | command _ color i huses hok ih => exact ih.command huses hok

/-- The answers of commands on the database at a place are those of an ordered map after the deeds
of a log, in which all keys with a common address have one value. -/
structure OrderedMap (tree : FileTree) (place : TreePath) (log : List Deed) : Prop where
  /-- Once there is a deed, the database can be used through any plain target that leads to it. -/
  opens : log ≠ [] → ∀ (i : Invocation) config t, i.settings tree.files = .ok config →
    i.target? tree.files = some t → t.Plain → tree.databasePath? t.path = some place →
    Connection.checkBusyWait config = .ok () → i.Uses tree place
  /-- Every key can be given, with a mark or without. -/
  spelled : ∀ raw, Spells (Hex.encode raw) raw ∧ Spells ("0x" ++ Hex.encode raw) raw
  /-- A get prints the value that was put last to the address of its key, unless a key with that
  address was deleted later. -/
  get : ∀ (color : Bool) (i : Invocation) arg raw a, i.Uses tree place → i.command = .get arg →
    Spells arg raw → Derives raw a →
      (∀ value, Stored log a value → (i.run color tree.files).report = .line (Hex.encode value)) ∧
      ((∀ value, ¬ Stored log a value) →
        (i.run color tree.files).report = .line (Style.yellow.paint color "not found"))
  has : ∀ (color : Bool) (i : Invocation) arg raw a, i.Uses tree place → i.command = .has arg →
    Spells arg raw → Derives raw a →
      ((∃ value, Stored log a value) →
        (i.run color tree.files).report = .line (Style.green.paint color "present")) ∧
      ((∀ value, ¬ Stored log a value) →
        (i.run color tree.files).report = .line (Style.yellow.paint color "absent"))
  /-- A key that derives to no address was not put, and is reported. -/
  underived : ∀ (color : Bool) (i : Invocation) arg raw e, i.Uses tree place →
    (i.command = .get arg ∨ i.command = .has arg) → Spells arg raw →
    Scheme.keccakBlockstore.deriveRaw raw = .error e →
      (i.run color tree.files).report = .ofError (.ofKeyError e) ∧
      ∀ deed ∈ log, deed.key ≠ raw
  /-- A scan prints the first keys that match, in order, each with the value that a get of it prints
  if values are asked for, and then their number. -/
  scan : ∀ (color : Bool) (i : Invocation) stemArg startArg limit values stem start,
    i.Uses tree place → i.command = .scan stemArg startArg limit values →
    Spells stemArg stem → Spells startArg start →
      ∃ keys value, Listed log stem start keys value ∧
        (i.run color tree.files).report =
          Command.listing color values (keys.take limit) value ∧
        ∀ key ∈ keys, ∀ (j : Invocation) arg, j.Uses tree place → j.command = .get arg →
          Spells arg key → (j.run color tree.files).report = .line (Hex.encode (value key))

section Answers

variable {tree : FileTree} {place : TreePath} {log : List Deed} (h : Carries tree place log)
  {i : Invocation} (huses : i.Uses tree place) (color : Bool) {arg : String} {raw : Bytes}
  {a : Address} (hspells : Spells arg raw)
include h huses hspells

/-- What a lookup prints is told by the block at the address of the key. -/
theorem Carries.get (hcommand : i.command = .get arg) (hderives : Derives raw a) :
    (∀ value, Stored log a value → (i.run color tree.files).report = .line (Hex.encode value)) ∧
      ((∀ value, ¬ Stored log a value) →
        (i.run color tree.files).report = .line (Style.yellow.paint color "not found")) := by
  obtain ⟨d, c, changes, hopens⟩ := huses.opens
  have hconnected := h.connected hopens
  have hreport : (i.run color tree.files).report =
      .line (((c.site d).backend.blockAt? a).elim
        (Style.yellow.paint color "not found") Hex.encode) := by
    rw [hopens.run_eq, hcommand, Command.run_get color d _ (hexArgument_ok_iff.2 hspells)]
    exact hconnected.runGet color d hderives
  rw [hreport]
  constructor
  · intro value hstored
    rw [hconnected.left.blockAt?_iff.2 hstored]
    rfl
  · intro hnone
    rw [hconnected.blockAt?_eq_none hnone]
    rfl

theorem Carries.has (hcommand : i.command = .has arg) (hderives : Derives raw a) :
    ((∃ value, Stored log a value) →
        (i.run color tree.files).report = .line (Style.green.paint color "present")) ∧
      ((∀ value, ¬ Stored log a value) →
        (i.run color tree.files).report = .line (Style.yellow.paint color "absent")) := by
  obtain ⟨d, c, changes, hopens⟩ := huses.opens
  have hconnected := h.connected hopens
  have hreport : (i.run color tree.files).report =
      .line (if ((c.site d).backend.blockAt? a).isSome
        then Style.green.paint color "present" else Style.yellow.paint color "absent") := by
    rw [hopens.run_eq, hcommand, Command.run_has color d _ (hexArgument_ok_iff.2 hspells)]
    exact hconnected.runHas color d hderives
  rw [hreport]
  constructor
  · rintro ⟨value, hstored⟩
    rw [hconnected.left.blockAt?_iff.2 hstored]
    rfl
  · intro hnone
    rw [hconnected.blockAt?_eq_none hnone]
    rfl

theorem Carries.underived {e : KeyError} (hcommand : i.command = .get arg ∨ i.command = .has arg)
    (hfails : Scheme.keccakBlockstore.deriveRaw raw = .error e) :
    (i.run color tree.files).report = .ofError (.ofKeyError e) ∧ ∀ deed ∈ log, deed.key ≠ raw := by
  obtain ⟨d, c, changes, hopens⟩ := huses.opens
  have hread := hexArgument_ok_iff.2 hspells
  constructor
  · rw [hopens.run_eq]
    rcases hcommand with hcommand | hcommand
    · rw [hcommand, Command.run_get color d _ hread]
      exact Command.runGet_underived hfails color d _
    · rw [hcommand, Command.run_has color d _ hread]
      exact Command.runHas_underived hfails color d _
  · rintro deed hmem rfl
    have hderives := Deed.derived_iff.1 (h.derived deed hmem)
    cases hfails.symm.trans hderives

theorem Carries.scan {startArg : String} {start : Bytes} (hstart : Spells startArg start)
    {limit : Nat} {values : Bool} (hcommand : i.command = .scan arg startArg limit values) :
    ∃ keys value, Listed log raw start keys value ∧
      (i.run color tree.files).report = Command.listing color values (keys.take limit) value := by
  obtain ⟨d, c, changes, hopens⟩ := huses.opens
  rw [hopens.run_eq, hcommand, Command.run_scan color d _ (hexArgument_ok_iff.2 hspells)
    (hexArgument_ok_iff.2 hstart)]
  exact (h.connected hopens).scan color values d limit raw start

end Answers

/-- Commands answer as an ordered map. -/
theorem orderedMap_of_written {tree : FileTree} {place : TreePath} {log : List Deed}
    (h : Written place tree log) : OrderedMap tree place log := by
  have hcarries := h.carries
  refine ⟨?opens, spells_encode, ?get, ?has, ?underived, ?scan⟩
  case opens =>
    intro hdeeds i config t hsettings ht hplain hplace hwait
    exact hcarries.uses_of_plain hdeeds hsettings ht hplain hplace hwait
  case get =>
    intro color i arg raw a huses hcommand hspells hderives
    exact hcarries.get huses color hspells hcommand hderives
  case has =>
    intro color i arg raw a huses hcommand hspells hderives
    exact hcarries.has huses color hspells hcommand hderives
  case underived =>
    intro color i arg raw e huses hcommand hspells hfails
    exact hcarries.underived huses color hspells hcommand hfails
  case scan =>
    intro color i stemArg startArg limit values stem start huses hcommand hstem hstart
    obtain ⟨keys, value, hlisted, hreport⟩ := hcarries.scan huses color hstem hstart hcommand
    refine ⟨keys, value, hlisted, hreport, fun key hmem j arg hother hget hspells => ?_⟩
    obtain ⟨a, hderives, hstored⟩ := hlisted.stored key hmem
    exact (hcarries.get hother color hspells hget hderives).1 (value key) hstored

namespace OrderedMap

/-- An invocation at the file `/a`, which is made if it is not there. -/
def atFile (command : Command) : Invocation := { command, url := some "sqlite:/a?mode=rwc" }

def digest : Bytes := List.replicate 32 7

/-- A key with the same address as the digest. -/
def preimage : Bytes := preimageTag ++ partMark ++ digest

def start : FileTree := ⟨[], []⟩

def put : Command := .put ("0x" ++ Hex.encode preimage) "02"

def after : FileTree := start.apply ((atFile put).run false start.files).changes

theorem written_start : Written ["a"] start [] := by
  have hholds : start.Holds ["a"] .absent := rfl
  exact .fresh hholds rfl

/-- A value that was put under the preimage key is that of the digest. -/
theorem orderedMap_preimage :
    Written ["a"] after put.deeds ∧ OrderedMap after ["a"] put.deeds ∧
      ((atFile (.get (Hex.encode digest))).run false after.files).report = .line "02" := by
  have hwritten : Written ["a"] after put.deeds :=
    written_start.command false (atFile put) (by decide +kernel) (by decide +kernel)
  exact ⟨hwritten, orderedMap_of_written hwritten, by decide +kernel⟩

/-- A get need not print a value or that there is none: it fails for a key without an address. -/
theorem not_always_told :
    ¬ ∀ (tree : FileTree) (place : TreePath) (log : List Deed), Written place tree log →
      ∀ (color : Bool) (i : Invocation) arg raw, i.Uses tree place → i.command = .get arg →
        Spells arg raw →
          (∃ a value, Derives raw a ∧ Stored log a value ∧
            (i.run color tree.files).report = .line (Hex.encode value)) ∨
          (i.run color tree.files).report = .line (Style.yellow.paint color "not found") := by
  intro h
  have hfails : ((atFile (.get (Hex.encode (0 :: digest)))).run false start.files).report.errors ≠
      [] := by
    decide +kernel
  rcases h start ["a"] [] written_start false (atFile (.get (Hex.encode (0 :: digest)))) _
    (0 :: digest) (by decide +kernel) rfl (spells_encode _).1 with ⟨_, value, _, _, htold⟩ | htold
  · exact hfails (congrArg Report.errors htold)
  · exact hfails (congrArg Report.errors htold)

end OrderedMap

end KeyedBlocks
