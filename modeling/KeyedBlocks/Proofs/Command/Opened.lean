import KeyedBlocks.Command.Run
import KeyedBlocks.FileTree
import Mathlib.Data.List.Basic

/-!
What a connection finds in a tree of files, and what it leaves there. A database at a place holds
the tables of its file, or none where there is no file yet; opening it, clearing away what is beside
it and making its tables change nothing else, and when the connection is closed the place holds the
tables that the connection had then.
-/
namespace KeyedBlocks

namespace FileTree

variable {t : FileTree} {place other : TreePath} {path : String} {tables new : Tables}

theorem node?_write_self (node : FileNode) (hplace : place ≠ []) :
    (t.write place node).node? place = some node := by
  simp [node?, write, hplace]

theorem node?_write_of_ne (node : FileNode) (hne : other ≠ place) :
    (t.write place node).node? other = t.node? other := by
  simp [node?, write, Assoc.find?_insert_of_ne hne]

theorem node?_remove_of_ne (hne : other ≠ place) :
    (t.remove place).node? other = t.node? other := by
  simp [node?, remove, Assoc.find?_erase_of_ne hne]

theorem dropLast_ne (hplace : place ≠ []) : place.dropLast ≠ place := by
  intro hsame
  have hlength := congrArg List.length hsame
  have hpositive := List.length_pos_iff.2 hplace
  rw [List.length_dropLast] at hlength
  omega

theorem beside_ne {ending : String} (hending : ending ≠ "") (place : TreePath) :
    beside place ending ≠ place := by
  intro hsame
  have hlast := congrArg List.getLast? hsame
  rw [beside, List.getLast?_concat] at hlast
  rw [← hlast, Option.getD_some] at hlast
  have hname := congrArg String.toList (Option.some.inj hlast)
  rw [String.toList_append, List.append_right_eq_self] at hname
  exact hending (String.toList_eq_nil_iff.1 hname)

theorem beside_ne_dropLast (place : TreePath) (ending : String) :
    beside place ending ≠ place.dropLast := by
  intro hsame
  have hlength := congrArg List.length hsame
  rw [beside, List.length_append, List.length_singleton] at hlength
  omega

/-- A database is not at the root. -/
theorem ne_nil_of_follow? {here : TreePath} {names : List String}
    (h : t.follow? here names = some place) : place ≠ [] := by
  induction names generalizing here with
  | nil =>
    unfold follow? at h
    split at h
    · cases h
    · rename_i hplace
      cases h
      rintro rfl
      exact hplace (by simp)
  | cons name rest ih =>
    unfold follow? at h
    split at h
    · exact ih h
    · split at h
      · exact ih h
      · obtain ⟨next, _, hrest⟩ := Option.bind_eq_some_iff.1 h
        exact ih hrest

theorem ne_nil_of_databasePath? (h : t.databasePath? path = some place) : place ≠ [] :=
  ne_nil_of_follow? h

/-- The tables of a database at a place, which has none if there is no file yet. -/
def Holds (t : FileTree) (place : TreePath) (tables : Tables) : Prop :=
  Connection.contents { main := t.databaseAt place } = .ok tables

theorem holds_of_tables (h : t.databaseAt place = .tables tables) : t.Holds place tables := by
  rw [Holds, h]
  rfl

theorem Holds.unique (h : t.Holds place tables) (hother : t.Holds place new) : tables = new :=
  Except.ok.inj (h.symm.trans hother)

/-- Tables that are there are in a file. -/
theorem Holds.databaseAt (h : t.Holds place tables) (hthere : tables ≠ .absent) :
    t.databaseAt place = .tables tables := by
  unfold Holds Connection.contents at h
  cases hfile : t.databaseAt place with
  | tables found =>
    rw [hfile] at h
    rw [Except.ok.inj h]
  | missing =>
    rw [hfile] at h
    exact absurd (Except.ok.inj h).symm hthere
  | unnamable | unreachable | directory | foreign =>
    rw [hfile] at h
    cases h

theorem isDirectory_of_databaseAt (h : t.databaseAt place ≠ .unreachable) :
    t.isDirectory place.dropLast = true := by
  unfold databaseAt at h
  split at h
  · exact absurd rfl h
  · rename_i hdirectory
    simpa using hdirectory

theorem Holds.isDirectory (h : t.Holds place tables) : t.isDirectory place.dropLast = true := by
  refine isDirectory_of_databaseAt fun hnone => ?_
  rw [Holds, hnone] at h
  cases h

theorem databaseAt_write (hplace : place ≠ []) (hdirectory : t.isDirectory place.dropLast = true)
    (content : FileContent) :
    (t.write place (.file content)).databaseAt place =
      match content with
      | .tables tables => .tables tables
      | .text content => if content.utf8ByteSize ≤ 1 then .tables .absent else .foreign := by
  have hkept : (t.write place (.file content)).isDirectory place.dropLast = true := by
    rw [isDirectory, node?_write_of_ne _ (dropLast_ne hplace)]
    exact hdirectory
  simp only [databaseAt, hkept, node?_write_self _ hplace]
  cases content <;> rfl

/-- What is beside a database is not part of what it holds. -/
theorem databaseAt_remove_beside {ending : String} (hending : ending ≠ "") :
    (t.remove (beside place ending)).databaseAt place = t.databaseAt place := by
  unfold databaseAt isDirectory
  rw [node?_remove_of_ne (beside_ne hending place).symm,
    node?_remove_of_ne (beside_ne_dropLast place ending).symm]

theorem holds_create (path : String) (hplace : place ≠ [])
    (hmissing : t.databaseAt place = .missing) :
    (t.change place (.create path)).Holds place .absent := by
  have hdirectory : t.isDirectory place.dropLast = true :=
    isDirectory_of_databaseAt (by rw [hmissing]; nofun)
  exact holds_of_tables (databaseAt_write hplace hdirectory _)

theorem Holds.save (h : t.Holds place tables) (hplace : place ≠ []) (path : String)
    (new : Tables) : (t.change place (.save path new)).Holds place new := by
  refine holds_of_tables ((databaseAt_remove_beside (by decide)).trans ?_)
  exact databaseAt_write hplace h.isDirectory _

theorem Holds.dropJournal (h : t.Holds place tables) :
    (t.change place (.dropJournal path)).Holds place tables := by
  show Connection.contents { main := (t.remove _).databaseAt place } = _
  rw [databaseAt_remove_beside (by decide)]
  exact h

theorem Holds.dropLog (h : t.Holds place tables) :
    (t.change place (.dropLog path)).Holds place tables := by
  show Connection.contents { main := (t.remove _).databaseAt place } = _
  rw [databaseAt_remove_beside (by decide)]
  exact h

theorem findDatabase_main (h : t.databasePath? path = some place) :
    (t.findDatabase path).main = t.databaseAt place := by
  unfold findDatabase
  rw [h]

def changeAll (t : FileTree) (place : TreePath) (changes : List FileChange) : FileTree :=
  changes.foldl (fun changed c => changed.change place c) t

theorem apply_eq {changes : List FileChange}
    (hpaths : ∀ c ∈ changes, t.databasePath? c.path = some place) :
    t.apply changes = t.changeAll place changes := by
  refine List.foldl_ext _ _ _ fun changed c hc => ?_
  rw [hpaths c hc]

/-- Dropping what is beside a database leaves what it holds. -/
theorem Holds.dropAll {changes : List FileChange} (h : t.Holds place tables)
    (hdrops : changes ⊆ [.dropJournal path, .dropLog path]) :
    (t.changeAll place changes).Holds place tables := by
  induction changes generalizing t with
  | nil => exact h
  | cons change rest ih =>
    obtain ⟨hfirst, hrest⟩ := List.cons_subset.1 hdrops
    refine ih (t := t.change place change) ?_ hrest
    rcases List.mem_cons.1 hfirst with rfl | hlog
    · exact h.dropJournal
    · obtain rfl := List.mem_singleton.1 hlog
      exact h.dropLog

end FileTree

namespace Connection

variable {files : Files} {config : SqlConfig} {t : Target} {f : DatabaseFiles}
  {changes opened cleared : List FileChange} {tables : Tables} {d : SqlDatabase} {c : Connection}

def openMain (t : Target) (f : DatabaseFiles) : Except Fault (List FileChange) :=
  match f.main with
  | .unnamable | .unreachable => .error cannotOpen
  | .directory => if t.permission = .read then .ok [] else .error cannotOpen
  | .missing => if t.permission = .create then .ok [.create t.path] else .error cannotOpen
  | _ => .ok []

theorem openMain_of_openFile (h : openFile files t f = .ok opened) : openMain t f = .ok opened := by
  simp only [openFile] at h
  by_cases hunnamable : f.main = .unnamable
  · rw [if_pos hunnamable] at h
    cases h
  · rw [if_neg hunnamable] at h
    split at h
    · split at h
      · cases h
      · exact h
    · exact h

/-- Opening makes a file where there is none, and nothing else. -/
theorem opened_cases (h : openFile files t f = .ok opened) :
    opened = [] ∨ (opened = [.create t.path] ∧ f.main = .missing) := by
  have hopened := openMain_of_openFile h
  unfold openMain at hopened
  split at hopened
  case h_1 | h_2 => cases hopened
  case h_3 =>
    split at hopened
    · exact Or.inl (Except.ok.inj hopened).symm
    · cases hopened
  case h_4 hmissing =>
    split at hopened
    · exact Or.inr ⟨(Except.ok.inj hopened).symm, hmissing⟩
    · cases hopened
  case h_5 => exact Or.inl (Except.ok.inj hopened).symm

theorem journal_cleared (h : clearJournal t f = .ok cleared) : cleared ⊆ [.dropJournal t.path] := by
  simp only [clearJournal] at h
  split at h
  · cases h
    exact List.nil_subset _
  · split at h
    · split at h
      · cases h
        exact List.Subset.refl _
      · cases h
        exact List.nil_subset _
    · split at h
      · cases h
        exact List.nil_subset _
      · split at h
        · cases h
        · cases h
          exact List.Subset.refl _

theorem log_cleared (h : clearLog t f = .ok cleared) : cleared ⊆ [.dropLog t.path] := by
  unfold clearLog at h
  split at h
  · cases h
    exact List.nil_subset _
  · split at h
    · cases h
      exact List.Subset.refl _
    · split at h
      · cases h
      · split at h
        · cases h
          exact List.nil_subset _
        · cases h
          exact List.Subset.refl _

/-- The first look drops what is beside the file, if anything. -/
theorem look_ok (h : look t f = (cleared, .ok tables)) :
    contents f = .ok tables ∧ cleared ⊆ [.dropJournal t.path, .dropLog t.path] := by
  unfold look at h
  split at h
  · obtain ⟨rfl, hcontents⟩ := Prod.mk.inj h
    exact ⟨hcontents, List.nil_subset _⟩
  · split at h
    case h_1 | h_2 | h_3 => cases h
    case h_4 journal log hjournal hlog _ =>
      obtain ⟨rfl, hcontents⟩ := Prod.mk.inj h
      refine ⟨hcontents, fun change hmem => ?_⟩
      rcases List.mem_append.1 hmem with hjournaled | hlogged
      · have hdropped := journal_cleared hjournal hjournaled
        exact List.mem_cons.2 (Or.inl (List.mem_singleton.1 hdropped))
      · exact List.mem_cons_of_mem _ (log_cleared hlog hlogged)

theorem migrate_complete (h : tables.isIncomplete = false) : tables.migrate = tables := by
  obtain ⟨blocks, preimages⟩ := tables
  cases blocks with
  | none => cases h
  | some rows =>
    cases preimages with
    | missing => cases h
    | foreign | rows => rfl

/-- Making the tables that are missing does nothing else. -/
theorem migrate_ok {made : Connection} (h : migrate c t = .ok made) :
    made = { c with database := { c.database with tables := c.database.tables.migrate } } := by
  simp only [migrate] at h
  split at h
  case isTrue hcomplete =>
    have hsame := migrate_complete (by simpa using hcomplete)
    rw [hsame]
    exact (Except.ok.inj h).symm
  case isFalse =>
    split at h
    · cases h
    · split at h
      · cases h
      · exact (Except.ok.inj h).symm

theorem migrateFile_ok {made : List FileChange} {next : Connection}
    (h : migrateFile c t f = (made, .ok next)) : made = [] ∧ migrate c t = .ok next := by
  simp only [migrateFile] at h
  split at h
  · exact ⟨(Prod.mk.inj h).1.symm, (Prod.mk.inj h).2⟩
  · split at h
    · cases h
    · split at h
      · cases h
      · exact ⟨(Prod.mk.inj h).1.symm, (Prod.mk.inj h).2⟩

/-- A connection to a file has the tables of the file, with those made that are missing. -/
theorem onDisk_ok (h : onDisk files config t = (changes, .ok c)) :
    ∃ opened cleared tables, openFile files t (files.database t.path) = .ok opened ∧
      look t (files.database t.path) = (cleared, .ok tables) ∧ changes = opened ++ cleared ∧
      migrate (ofTables config t tables) t = .ok c := by
  simp only [onDisk] at h
  split at h
  · cases h
  case h_2 opened hopened =>
    split at h
    · cases h
    · split at h
      · cases h
      case h_2 cleared tables hlook =>
        obtain ⟨hchanges, hmigrated⟩ := Prod.mk.inj h
        obtain ⟨hmade, hmigrate⟩ := migrateFile_ok (Prod.ext rfl hmigrated)
        refine ⟨opened, cleared, tables, hopened, hlook, hchanges.symm.trans ?_, hmigrate⟩
        exact (congrArg (opened ++ cleared ++ ·) hmade).trans (List.append_nil _)

theorem connect_ok (htarget : target config = .ok t)
    (h : connect files config = (changes, .ok (d, c))) :
    SqlDatabase.create config = .ok d ∧ toTarget files config t = (changes, .ok c) := by
  unfold connect at h
  cases hcreate : SqlDatabase.create config with
  | error e =>
    rw [hcreate] at h
    cases h
  | ok created =>
    simp only [hcreate, htarget] at h
    split at h
    · cases h
    · obtain ⟨hchanges, hlift⟩ := Prod.mk.inj h
      cases hmade : (toTarget files config t).2 with
      | error fault =>
        rw [hmade] at hlift
        cases hlift
      | ok made =>
        rw [hmade] at hlift
        cases hlift
        exact ⟨rfl, Prod.ext hchanges hmade⟩

theorem create_config (h : SqlDatabase.create config = .ok d) : d.config = config := by
  unfold SqlDatabase.create at h
  cases hcheck : config.check with
  | error e =>
    rw [hcheck] at h
    cases h
  | ok _ =>
    rw [hcheck] at h
    cases h
    rfl

end Connection

def Connection.site (c : Connection) (d : SqlDatabase) : Site Relational :=
  ⟨c.database, .create d.config.store.cache, 0⟩

namespace Invocation

/-- An invocation comes as far as its command, on a connection to the database at a place. -/
structure Opens (i : Invocation) (tree : FileTree) (place : TreePath) (d : SqlDatabase)
    (c : Connection) (changes : List FileChange) : Prop where
  settings : i.settings tree.files = .ok d.config
  target : ∃ t, Connection.target d.config = .ok t ∧ t.isOnDisk = true ∧
    tree.databasePath? t.path = some place
  connect : Connection.connect tree.files d.config = (changes, .ok (d, c))

variable {i : Invocation} {tree : FileTree} {place : TreePath} {d : SqlDatabase} {c : Connection}
  {changes : List FileChange} {tables : Tables}

/-- What is left of the command at the new site is printed and saved. -/
theorem Opens.run_eq (h : i.Opens tree place d c changes) (color : Bool) :
    i.run color tree.files = ⟨(i.command.run color d (c.site d)).2,
      changes ++ c.changes (i.command.run color d (c.site d)).1.backend.tables⟩ := by
  simp only [run, h.settings, h.connect]
  rfl

/-- What a connection has in the beginning is what the file held, and making the connection has not
changed that. -/
theorem Opens.connected (h : i.Opens tree place d c changes) :
    ∃ path tables readOnly, tree.databasePath? path = some place ∧
      (∀ change ∈ changes, change.path = path) ∧ tree.Holds place tables ∧
      (tree.changeAll place changes).Holds place tables ∧ c.file = some (path, tables) ∧
      c.database =
        { tables := tables.migrate
          readOnly
          maxConnections := d.config.maxConnections } := by
  obtain ⟨t, htarget, hdisk, hplace⟩ := h.target
  obtain ⟨_, hconnect⟩ := Connection.connect_ok htarget h.connect
  simp only [Connection.toTarget, hdisk, if_true] at hconnect
  obtain ⟨opened, cleared, tables, hopened, hlook, rfl, hmigrate⟩ := Connection.onDisk_ok hconnect
  obtain ⟨hcontents, hdrops⟩ := Connection.look_ok hlook
  obtain rfl := Connection.migrate_ok hmigrate
  have hmain := FileTree.findDatabase_main hplace
  have hholds : tree.Holds place tables := by
    rw [FileTree.Holds, ← hmain]
    exact hcontents
  refine ⟨t.path, tables, t.isReadOnly, hplace, ?paths, hholds, ?kept, ?_, rfl⟩
  case paths =>
    intro change hmem
    rcases List.mem_append.1 hmem with hopen | hclear
    · rcases Connection.opened_cases hopened with rfl | ⟨rfl, _⟩
      · cases hopen
      · rw [List.mem_singleton.1 hopen]
        rfl
    · rcases List.mem_cons.1 (hdrops hclear) with rfl | hlog
      · rfl
      · rw [List.mem_singleton.1 hlog]
        rfl
  case kept =>
    rw [FileTree.changeAll, List.foldl_append]
    refine FileTree.Holds.dropAll ?_ hdrops
    rcases Connection.opened_cases hopened with rfl | ⟨rfl, hmissing⟩
    · exact hholds
    · have hnone := hmain.symm.trans hmissing
      rw [FileTree.Holds, hnone] at hholds
      cases hholds
      exact FileTree.holds_create t.path (FileTree.ne_nil_of_databasePath? hplace) hnone
  case _ => simp only [Connection.ofTables, hdisk, if_true]

/-- A connection that is closed leaves the tables that it has then. -/
theorem Opens.closed (h : i.Opens tree place d c changes) (final : Tables) :
    (tree.apply (changes ++ c.changes final)).Holds place final := by
  obtain ⟨path, found, readOnly, hplace, hpaths, _, hkept, hfile, _⟩ := h.connected
  simp only [Connection.changes, hfile]
  by_cases hsame : final = found
  · have hall : ∀ change ∈ changes, tree.databasePath? change.path = some place := by
      intro change hmem
      rw [hpaths change hmem, hplace]
    rw [if_pos hsame, List.append_nil, FileTree.apply_eq hall, hsame]
    exact hkept
  · have hall : ∀ change ∈ changes ++ [.save path final],
        tree.databasePath? change.path = some place := by
      intro change hmem
      rcases List.mem_append.1 hmem with hearly | hlast
      · rw [hpaths change hearly, hplace]
      · rw [List.mem_singleton.1 hlast]
        exact hplace
    rw [if_neg hsame, FileTree.apply_eq hall, FileTree.changeAll, List.foldl_append]
    exact hkept.save (FileTree.ne_nil_of_databasePath? hplace) path final

/-- The place of the database that an invocation names, if it is one on disk. -/
def place? (i : Invocation) (tree : FileTree) : Option TreePath :=
  (i.target? tree.files).bind fun t => if t.isOnDisk then tree.databasePath? t.path else none

def connection? (i : Invocation) (tree : FileTree) : Option (SqlDatabase × Connection) :=
  match i.settings tree.files with
  | .ok config => (Connection.connect tree.files config).2.toOption
  | .error _ => none

/-- An invocation does its command on the database at a place. -/
def Uses (i : Invocation) (tree : FileTree) (place : TreePath) : Prop :=
  i.place? tree = some place ∧ (i.connection? tree).isSome

instance (i : Invocation) (tree : FileTree) (place : TreePath) : Decidable (i.Uses tree place) :=
  inferInstanceAs (Decidable (_ ∧ _))

theorem target?_eq_some {t : Target} (h : i.target? tree.files = some t) :
    ∃ config, i.settings tree.files = .ok config ∧ config.check = .ok () ∧
      config.isPostgres = false ∧ Connection.target config = .ok t := by
  unfold target? at h
  split at h
  · cases h
  case h_2 config hsettings =>
    split at h
    case isTrue husable =>
      refine ⟨config, hsettings, ?_⟩
      simp only [Bool.and_eq_true, Bool.not_eq_true'] at husable
      cases hcheck : config.check with
      | error e =>
        rw [hcheck] at husable
        cases husable.1
      | ok _ =>
        cases htarget : Connection.target config with
        | error fault =>
          rw [htarget] at h
          cases h
        | ok found =>
          rw [htarget] at h
          obtain rfl : found = t := Option.some.inj h
          exact ⟨rfl, husable.2, rfl⟩
    case isFalse => cases h

theorem Uses.opens (h : i.Uses tree place) : ∃ d c changes, i.Opens tree place d c changes := by
  obtain ⟨hplace, hconnection⟩ := h
  obtain ⟨t, ht, hdisk⟩ := Option.bind_eq_some_iff.1 hplace
  obtain ⟨config, hsettings, hcheck, _, htarget⟩ := target?_eq_some ht
  simp only [connection?, hsettings] at hconnection
  rcases hconnect : Connection.connect tree.files config with ⟨changes, e | ⟨d, c⟩⟩
  · rw [hconnect] at hconnection
    cases hconnection
  · obtain rfl := Connection.create_config (Connection.connect_ok htarget hconnect).1
    refine ⟨d, c, changes, hsettings, ⟨t, htarget, ?_⟩, hconnect⟩
    split at hdisk
    case isTrue hon => exact ⟨hon, hdisk⟩
    case isFalse => cases hdisk

end Invocation

/-- A target that is opened for writing and locked in the usual way. -/
structure Target.Plain (t : Target) : Prop where
  onDisk : t.isOnDisk = true
  permission : t.permission ≠ .read
  locked : Connection.canUseLog t = true
  pattern : t.pattern = none

namespace Target.Plain

variable {t : Target} (h : t.Plain)
include h

theorem usesLockFile : Connection.usesLockFile t = false := by
  have hlocked := h.locked
  unfold Connection.canUseLog at hlocked
  unfold Connection.usesLockFile
  by_cases haccess : t.access = "unix-dotfile"
  · simp [haccess] at hlocked
  · simp [haccess]

/-- What an earlier connection left is cleared away. -/
theorem look (f : DatabaseFiles) :
    ∃ cleared, Connection.look t f = (cleared, Connection.contents f) := by
  have hjournal : ∃ cleared, Connection.clearJournal t f = .ok cleared := by
    simp only [Connection.clearJournal, h.permission, if_false]
    split
    · exact ⟨_, rfl⟩
    · split
      · exact ⟨_, rfl⟩
      · split <;> exact ⟨_, rfl⟩
  have hlog : ∃ cleared, Connection.clearLog t f = .ok cleared := by
    simp only [Connection.clearLog, h.locked, h.permission, if_false]
    split
    · exact ⟨_, rfl⟩
    · split <;> exact ⟨_, rfl⟩
  obtain ⟨journal, hjournal⟩ := hjournal
  obtain ⟨log, hlog⟩ := hlog
  unfold Connection.look
  split
  · exact ⟨[], rfl⟩
  · simp only [Connection.checkLock, h.usesLockFile, hjournal, hlog]
    exact ⟨_, rfl⟩

end Target.Plain

namespace Connection

variable {files : Files} {config : SqlConfig} {t : Target} {tables : Tables}

theorem connect_of_check (hcheck : config.check = .ok ()) (hlocal : config.isPostgres = false)
    (htarget : target config = .ok t) :
    connect files config = ((toTarget files config t).1,
      Relational.lift ((toTarget files config t).2.map fun c => (⟨config⟩, c))) := by
  have hcreate : SqlDatabase.create config = .ok ⟨config⟩ := by
    rw [SqlDatabase.create, hcheck]
    rfl
  simp only [connect, hcreate, hlocal, htarget]
  rfl

/-- A connection to tables that are all there fails only over what is not plain in its target. -/
theorem toTarget_plain (hplain : t.Plain) (hwait : checkBusyWait config = .ok ())
    (hmain : (files.database t.path).main = .tables tables)
    (hcomplete : tables.isIncomplete = false) :
    ∃ changes c, toTarget files config t = (changes, .ok c) := by
  have hopen : openFile files t (files.database t.path) = .ok [] := by
    simp only [openFile, hmain, hplain.pattern]
    rfl
  obtain ⟨cleared, hlook⟩ := hplain.look (files.database t.path)
  have hcontents : contents (files.database t.path) = .ok tables := by
    rw [contents, hmain]
  have hmigrate : migrate (ofTables config t tables) t = .ok (ofTables config t tables) := by
    simp only [migrate, ofTables, hcomplete]
    rfl
  have hmade : migrateFile (ofTables config t tables) t (files.database t.path) =
      ([], migrate (ofTables config t tables) t) := by
    simp only [migrateFile, ofTables, hcomplete]
    rfl
  rw [hmigrate] at hmade
  refine ⟨[] ++ cleared ++ [], ofTables config t tables, ?_⟩
  simp only [toTarget, hplain.onDisk, if_true, onDisk, hopen, hwait, hlook, hcontents, hmade]

end Connection

namespace Invocation

variable {i : Invocation} {tree : FileTree} {place : TreePath} {tables : Tables}

/-- A database that has its tables can be used through any plain target. -/
theorem uses_of_plain {t : Target} {config : SqlConfig}
    (hsettings : i.settings tree.files = .ok config) (ht : i.target? tree.files = some t)
    (hplain : t.Plain) (hplace : tree.databasePath? t.path = some place)
    (hwait : Connection.checkBusyWait config = .ok ())
    (htables : tree.databaseAt place = .tables tables) (hcomplete : tables.isIncomplete = false) :
    i.Uses tree place := by
  obtain ⟨_, hsame, hcheck, hlocal, htarget⟩ := target?_eq_some ht
  cases hsettings.symm.trans hsame
  have hmain : (tree.files.database t.path).main = .tables tables :=
    (FileTree.findDatabase_main hplace).trans htables
  obtain ⟨changes, c, hconnect⟩ := Connection.toTarget_plain hplain hwait hmain hcomplete
  refine ⟨?place, ?connection⟩
  case place =>
    rw [place?, ht, Option.bind_some, if_pos hplain.onDisk]
    exact hplace
  case connection =>
    simp only [connection?, hsettings, Connection.connect_of_check hcheck hlocal htarget, hconnect]
    rfl

end Invocation

end KeyedBlocks
