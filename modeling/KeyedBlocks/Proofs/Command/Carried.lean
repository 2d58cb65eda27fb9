import KeyedBlocks.Command.Run
import KeyedBlocks.Proofs.Cache.OneGet
import KeyedBlocks.Proofs.Relational.Values

/-!
What commands do on a new connection, to tables that hold what a log of deeds leaves. A put or a
delete that succeeds does its deed to the tables, and no other command changes them. Reading
commands print what the log tells: the block that is stored at the address of a key, or the first of
the live keys that match, in order.
-/
namespace KeyedBlocks

section Log

variable {log : List Deed} {key : Bytes} {a : Address}

theorem Deed.derived_iff {deed : Deed} : deed.Derived ↔ Derives deed.key deed.address := by
  cases deed <;> exact Iff.rfl

/-- Where keys are filed under the addresses that they derive to, they lead there while they live.
-/
theorem leadsTo_iff_live (hderived : ∀ deed ∈ log, deed.Derived) :
    LeadsTo log key a ↔ Derives key a ∧ Live log key a := by
  rw [leadsTo_iff]
  constructor
  · rintro ⟨hlive, _⟩
    obtain ⟨deed, hmem, rfl, rfl⟩ := hlive.exists_mem
    exact ⟨Deed.derived_iff.1 (hderived deed hmem), hlive⟩
  · rintro ⟨hderives, hlive⟩
    refine ⟨hlive, not_strayed fun deed hmem hkey => ?_⟩
    have hsame := Deed.derived_iff.1 (hderived deed hmem)
    rw [hkey] at hsame
    exact hsame.unique hderives

end Log

/-- A key with an address in the index is a key of the index. -/
theorem Relational.mem_keys_of_addressOf? {d : Relational} {key : Bytes} {a : Address}
    (h : d.addressOf? key = some a) : key ∈ d.keys := by
  unfold addressOf? at h
  unfold keys
  cases htable : d.tables.preimages with
  | missing | foreign =>
    rw [htable] at h
    cases h
  | rows entries =>
    rw [htable] at h
    exact List.mem_map_of_mem (Assoc.mem_of_find?_eq_some h)

namespace SqlDatabase

variable {d : SqlDatabase} {s : Site Relational} {raw : Bytes} {a : Address} {e : KeyError}

theorem file_of_derives (h : Derives raw a) :
    (KeyForm.raw raw).file d.handle.scheme = .ok (raw, a) := by
  rw [KeyForm.file_raw]
  exact congrArg (Except.map (raw, ·)) h

theorem file_of_underived (h : Scheme.keccakBlockstore.deriveRaw raw = .error e) :
    (KeyForm.raw raw).file d.handle.scheme = .error e := by
  rw [KeyForm.file_raw]
  exact congrArg (Except.map (raw, ·)) h

/-- A raw key with an address is used under it. -/
theorem onFiled_of_derives {σ α : Type} {s : σ} {act : Bytes → Address → σ × Except StoreError α}
    (h : Derives raw a) : onFiled s ((KeyForm.raw raw).file d.handle.scheme) act = act raw a := by
  rw [file_of_derives h]
  rfl

/-- A raw key without one is reported. -/
theorem onFiled_of_underived {σ α : Type} {s : σ}
    {act : Bytes → Address → σ × Except StoreError α}
    (h : Scheme.keccakBlockstore.deriveRaw raw = .error e) :
    onFiled s ((KeyForm.raw raw).file d.handle.scheme) act = (s, .error (.ofKeyError e)) := by
  rw [file_of_underived h]
  rfl

variable (d s raw)

theorem putRaw_eq (value : Bytes) : d.handle.putRaw s raw value =
    onFiled s ((KeyForm.raw raw).file d.handle.scheme) fun raw a => s.put raw a value :=
  d.handle.facade_put Relational.pace s (.raw raw) value

theorem getRaw_eq : d.handle.getRaw s raw =
    onFiled s ((KeyForm.raw raw).file d.handle.scheme) s.get :=
  d.handle.facade_get Relational.pace s (.raw raw)

theorem hasRaw_eq : d.handle.hasRaw s raw =
    onFiled s ((KeyForm.raw raw).file d.handle.scheme) fun _ a => s.has a :=
  d.handle.facade_has Relational.pace s (.raw raw)

theorem deleteRaw_eq : d.handle.deleteRaw s raw =
    onFiled s ((KeyForm.raw raw).file d.handle.scheme) s.delete :=
  d.handle.facade_delete Relational.pace s (.raw raw)

end SqlDatabase

theorem StoreError.chain_ne_nil (e : StoreError) : e.chain ≠ [] := by
  cases e <;> exact List.cons_ne_nil _ _

/-- A key error is never that there is no block. -/
theorem StoreError.isNotFound_ofKeyError (e : KeyError) : (ofKeyError e).isNotFound = false := by
  cases e <;> rfl

namespace Command

def deedAt (raw : Bytes) (deed : Address → Deed) : List Deed :=
  match Scheme.keccakBlockstore.deriveRaw raw with
  | .ok a => [deed a]
  | .error _ => []

def deeds : Command → List Deed
  | .put key value =>
      match hexArgument key, hexArgument value with
      | .ok raw, .ok value => deedAt raw fun a => .put raw a value
      | _, _ => []
  | .delete key =>
      match hexArgument key with
      | .ok raw => deedAt raw fun a => .delete raw a
      | .error _ => []
  | .get _ | .has _ | .scan .. | .stat _ => []

theorem deedAt_of_derives {raw : Bytes} {a : Address} (h : Derives raw a) (deed : Address → Deed) :
    deedAt raw deed = [deed a] := by
  have hderives : Scheme.keccakBlockstore.deriveRaw raw = .ok a := h
  simp only [deedAt, hderives]

theorem derived_of_mem_deedAt {raw : Bytes} {deed : Address → Deed} {done : Deed}
    (hmem : done ∈ deedAt raw deed) : ∃ a, Derives raw a ∧ done = deed a := by
  unfold deedAt at hmem
  split at hmem
  case h_1 a hderives => exact ⟨a, hderives, List.mem_singleton.1 hmem⟩
  case h_2 => cases hmem

theorem deeds_derived (c : Command) : ∀ deed ∈ c.deeds, deed.Derived := by
  intro deed hmem
  cases c with
  | put key value =>
    simp only [deeds] at hmem
    split at hmem
    · obtain ⟨a, hderives, rfl⟩ := derived_of_mem_deedAt hmem
      exact hderives
    · cases hmem
  | delete key =>
    simp only [deeds] at hmem
    split at hmem
    · obtain ⟨a, hderives, rfl⟩ := derived_of_mem_deedAt hmem
      exact hderives
    · cases hmem
  | get | has | scan | stat => cases hmem

variable {color : Bool} {d : SqlDatabase} {s : Site Relational} {raw value : Bytes}

theorem errors_of_hexArgument {arg : String} {report : Report}
    (h : hexArgument arg = .error report) : report.errors ≠ [] := by
  unfold hexArgument at h
  split at h
  · cases h
  · cases h
    exact List.cons_ne_nil _ _

/-- A write through a raw key that succeeds does its deeds. -/
theorem tables_of_filed (request : Bytes → Address → Request)
    (hok : (onFiled s ((KeyForm.raw raw).file d.handle.scheme)
      fun key a => s.make (request key a)).2 = .ok ()) :
    ∃ a, Derives raw a ∧ (onFiled s ((KeyForm.raw raw).file d.handle.scheme)
      fun key a => s.make (request key a)).1.backend.tables =
        s.backend.tables.afterDeeds (request raw a).deeds := by
  cases hderives : Scheme.keccakBlockstore.deriveRaw raw with
  | error e =>
    rw [SqlDatabase.onFiled_of_underived hderives] at hok
    cases hok
  | ok a =>
    rw [SqlDatabase.onFiled_of_derives hderives] at hok ⊢
    refine ⟨a, hderives, ?_⟩
    rcases Relational.make_cases s (request raw a) with ⟨tables, hexec, hmake⟩ | ⟨e, hmake⟩
    · rw [hmake]
      exact Tables.execAll_deeds hexec
    · rw [hmake] at hok
      cases hok

/-- A put that succeeds does its deed. -/
theorem tables_of_runPut (hok : (runPut color d s raw value).2.errors = []) :
    ∃ a, Derives raw a ∧ (runPut color d s raw value).1.backend.tables =
      s.backend.tables.afterDeeds [.put raw a value] := by
  have hsite : (runPut color d s raw value).1 = (d.handle.putRaw s raw value).1 := by
    unfold runPut
    rcases d.handle.putRaw s raw value with ⟨after, e | _⟩
    · rfl
    · rcases d.handle.address raw with e | a <;> rfl
  have hput : (d.handle.putRaw s raw value).2 = .ok () := by
    unfold runPut at hok
    rcases hraw : d.handle.putRaw s raw value with ⟨after, e | _⟩
    · rw [hraw] at hok
      exact absurd hok (StoreError.chain_ne_nil e)
    · rfl
  rw [hsite]
  rw [d.putRaw_eq] at hput ⊢
  exact tables_of_filed (fun key a => .put key a value) hput

/-- So does a delete. -/
theorem tables_of_runDelete {arg : String} (hok : (runDelete color d s arg raw).2.errors = []) :
    ∃ a, Derives raw a ∧ (runDelete color d s arg raw).1.backend.tables =
      s.backend.tables.afterDeeds [.delete raw a] := by
  have hsite : (runDelete color d s arg raw).1 = (d.handle.deleteRaw s raw).1 := by
    unfold runDelete
    rcases d.handle.deleteRaw s raw with ⟨after, e | _⟩ <;> rfl
  have hdelete : (d.handle.deleteRaw s raw).2 = .ok () := by
    unfold runDelete at hok
    rcases hraw : d.handle.deleteRaw s raw with ⟨after, e | _⟩
    · rw [hraw] at hok
      exact absurd hok (StoreError.chain_ne_nil e)
    · rfl
  rw [hsite]
  rw [d.deleteRaw_eq] at hdelete ⊢
  exact tables_of_filed .delete hdelete

theorem site_of_runGet : (runGet color d s raw).1 = (d.handle.getRaw s raw).1 := by
  unfold runGet
  rcases d.handle.getRaw s raw with ⟨after, e | value⟩ <;> rfl

theorem site_of_runHas : (runHas color d s raw).1 = (d.handle.hasRaw s raw).1 := by
  unfold runHas
  rcases d.handle.hasRaw s raw with ⟨after, e | found⟩
  · rfl
  · cases found <;> rfl

/-- Looking up a key changes no table, whether the key has an address or not. -/
theorem tables_of_runGet : (runGet color d s raw).1.backend.tables = s.backend.tables := by
  rw [site_of_runGet, d.getRaw_eq]
  unfold onFiled
  split <;> rfl

theorem tables_of_runHas : (runHas color d s raw).1.backend.tables = s.backend.tables := by
  rw [site_of_runHas, d.hasRaw_eq]
  unfold onFiled
  split <;> rfl

section Arguments

variable (color d s) {key start text : String} {limit : Nat} {values : Bool} {bytes first : Bytes}

theorem run_put (hkey : hexArgument key = .ok raw) (htext : hexArgument text = .ok bytes) :
    (Command.put key text).run color d s = runPut color d s raw bytes := by
  simp only [run, hkey, htext]
  rfl

theorem run_delete (hkey : hexArgument key = .ok raw) :
    (Command.delete key).run color d s = runDelete color d s key raw := by
  simp only [run, hkey]
  rfl

theorem run_get (hkey : hexArgument key = .ok raw) :
    (Command.get key).run color d s = runGet color d s raw := by
  simp only [run, hkey]
  rfl

theorem run_has (hkey : hexArgument key = .ok raw) :
    (Command.has key).run color d s = runHas color d s raw := by
  simp only [run, hkey]
  rfl

theorem run_scan (hstem : hexArgument text = .ok raw) (hstart : hexArgument start = .ok first) :
    (Command.scan text start limit values).run color d s =
      (s, scanReport color (d.walk s.backend values limit (d.iterate raw first)).1
        (d.walk s.backend values limit (d.iterate raw first)).2) := by
  simp only [run, hstem, hstart]
  rfl

end Arguments

/-- A command that succeeds does its deeds to the tables, if it has any, and nothing else. -/
theorem tables_of_success {c : Command} (hok : (c.run color d s).2.errors = []) :
    (c.run color d s).1.backend.tables = s.backend.tables.afterDeeds c.deeds := by
  cases c with
  | put key text =>
    cases hkey : hexArgument key with
    | error report =>
      simp only [run, hkey] at hok
      exact absurd hok (errors_of_hexArgument hkey)
    | ok raw =>
      cases htext : hexArgument text with
      | error report =>
        simp only [run, hkey, htext] at hok
        exact absurd hok (errors_of_hexArgument htext)
      | ok bytes =>
        rw [run_put color d s hkey htext] at hok ⊢
        obtain ⟨a, hderives, htables⟩ := tables_of_runPut hok
        simp only [htables, deeds, hkey, htext, deedAt_of_derives hderives]
  | delete key =>
    cases hkey : hexArgument key with
    | error report =>
      simp only [run, hkey] at hok
      exact absurd hok (errors_of_hexArgument hkey)
    | ok raw =>
      rw [run_delete color d s hkey] at hok ⊢
      obtain ⟨a, hderives, htables⟩ := tables_of_runDelete hok
      simp only [htables, deeds, hkey, deedAt_of_derives hderives]
  | get key =>
    cases hkey : hexArgument key with
    | error report =>
      simp only [run, hkey]
      rfl
    | ok raw =>
      rw [run_get color d s hkey]
      exact tables_of_runGet
  | has key =>
    cases hkey : hexArgument key with
    | error report =>
      simp only [run, hkey]
      rfl
    | ok raw =>
      rw [run_has color d s hkey]
      exact tables_of_runHas
  | scan stem start limit values =>
    simp only [run]
    cases hexArgument stem with
    | error report => rfl
    | ok stem =>
      cases hexArgument start with
      | error report => rfl
      | ok start => rfl
  | stat property =>
    simp only [run, runStat]
    cases SqlDatabase.stat s property <;> rfl

end Command

/-- The keys of a log that match a stem and a start, in order, and a value for each: the block at
its address. -/
structure Listed (log : List Deed) (stem start : Bytes) (keys : List Bytes)
    (value : Bytes → Bytes) : Prop where
  ascending : keys.Pairwise (· < ·)
  mem_iff : ∀ key, key ∈ keys ↔
    Iteration.Matches stem start key ∧ ∃ a, Derives key a ∧ Live log key a
  stored : ∀ key ∈ keys, ∃ a, Derives key a ∧ Stored log a (value key)

namespace Command

/-- What a scan prints that comes to its end: a line for each key, and how many keys there were. -/
def listing (color values : Bool) (keys : List Bytes) (value : Bytes → Bytes) : Report :=
  let lines := keys.map fun key =>
    Style.yellow.paint color (Hex.encode key) ++
      if values then " " ++ Hex.encode (value key) else ""
  let count := toString keys.length ++ " keys"
  { out := String.join (lines.map (· ++ "\n")) ++ Style.dimmed.paint color count ++ "\n" }

theorem scanReport_listing {last : Cursor} (hlast : last.error? = none) (color values : Bool)
    (keys : List Bytes) (value : Bytes → Bytes) :
    scanReport color last (keys.map fun key =>
        ⟨key, if values then some (.ok (value key)) else none⟩) =
      listing color values keys value := by
  have hline : ∀ key, visitLine? color ⟨key, if values then some (.ok (value key)) else none⟩ =
      some (Style.yellow.paint color (Hex.encode key) ++
        if values then " " ++ Hex.encode (value key) else "") := by
    intro key
    cases values with
    | false => simp [visitLine?]
    | true => simp [visitLine?, String.append_assoc]
  simp only [scanReport, hlast, listing, List.filterMap_map, List.length_map]
  have hlines : ((visitLine? color) ∘ fun key : Bytes =>
      (⟨key, if values then some (.ok (value key)) else none⟩ : Visit)) =
      some ∘ fun key => Style.yellow.paint color (Hex.encode key) ++
        if values then " " ++ Hex.encode (value key) else "" := funext hline
  rw [hlines, List.filterMap_eq_map]

end Command

/-- A site as a new connection makes it, to tables that hold what a log leaves. -/
structure Connected (s : Site Relational) (log : List Deed) : Prop where
  isOpen : s.backend.isOpen = true
  quick : s.backend.fetchMs = 0
  unused : ∃ config, s.cache = .create config
  left : s.backend.LeftBy log
  derived : ∀ deed ∈ log, deed.Derived

namespace Connected

variable {s : Site Relational} {log : List Deed} (h : Connected s log) {raw : Bytes} {a : Address}
include h

/-- The first get at a site goes to the tables, and does not have to wait for them. -/
theorem get (raw : Bytes) (a : Address) :
    (s.get raw a).2 = (s.backend.blockAt? a).elim (.error (.notFound (Hex.encode raw))) .ok := by
  obtain ⟨config, hcache⟩ := h.unused
  have hpeek : s.cache.peek s.now a = none := by
    rw [hcache]
    rfl
  have hfree : s.cache.leader? a = none := by
    rw [hcache]
    rfl
  have hwait : (s.loader raw a).wait = 0 := by
    simp only [Site.loader, Loader.wait, Backend.readDelay, Relational.readDelay, h.isOpen,
      h.quick]
    rfl
  have hanswer : Site.answer s.backend raw a =
      (s.backend.blockAt? a).elim (.error (.notFound (Hex.encode raw))) .ok := by
    simp only [Site.answer, Backend.read, h.left.read h.isOpen]
    cases s.backend.blockAt? a <;> rfl
  rw [Site.get_miss raw hpeek hfree]
  simp only [Timeline.Loader.outcome, hwait, Nat.zero_le, if_true]
  exact hanswer

/-- Where the log stores nothing, there is no block. -/
theorem blockAt?_eq_none (hnone : ∀ value, ¬ Stored log a value) : s.backend.blockAt? a = none :=
  Option.eq_none_iff_forall_ne_some.2 fun value hblock =>
    hnone value (h.left.blockAt?_iff.1 hblock)

theorem has (a : Address) : (s.has a).2 = .ok (s.backend.blockAt? a).isSome := by
  obtain ⟨rows, entries, htables, _⟩ := h.left
  simp only [Site.has, Backend.has, Relational.has, Relational.query, h.isOpen, if_true,
    Relational.blockAt?, htables]
  simp [Tables.has, Tables.blockRows, Relational.lift, Assoc.contains]

theorem begun (d : SqlDatabase) (stem start : Bytes) :
    (Iteration.ofSite s d stem start).Begun stem start :=
  Iteration.ofSite_begun ⟨h.isOpen, h.left.indexed⟩ d stem start

/-- The index leads from a key to a block just while the key lives. -/
theorem mem_keys_iff {key : Bytes} :
    key ∈ s.backend.keys ↔ ∃ a, Derives key a ∧ Live log key a := by
  constructor
  · intro hmem
    obtain ⟨a, haddress⟩ := h.left.exists_addressOf? hmem
    exact ⟨a, (leadsTo_iff_live h.derived).1 (h.left.addressOf?_iff.1 haddress)⟩
  · rintro ⟨a, hlive⟩
    have haddress := h.left.addressOf?_iff.2 ((leadsTo_iff_live h.derived).2 hlive)
    exact Relational.mem_keys_of_addressOf? haddress

theorem exists_stored {key : Bytes} (hmem : key ∈ s.backend.keys) :
    ∃ a value, Derives key a ∧ s.backend.blockAt? a = some value ∧
      s.backend.blockOf? key = some value := by
  obtain ⟨a, haddress⟩ := h.left.exists_addressOf? hmem
  obtain ⟨value, hblock⟩ := h.left.exists_blockAt? haddress
  have hlive := (leadsTo_iff_live h.derived).1 (h.left.addressOf?_iff.1 haddress)
  refine ⟨a, value, hlive.1, hblock, ?_⟩
  rw [Relational.blockOf?, haddress]
  exact hblock

theorem listed (d : SqlDatabase) (stem start : Bytes) :
    Listed log stem start ((Iteration.ofSite s d stem start).matching stem start)
      fun key => (s.backend.blockOf? key).getD [] where
  ascending := (h.begun d stem start).matching_ascending
  mem_iff key := by
    rw [Iteration.mem_matching, and_comm, ← h.mem_keys_iff]
    rfl
  stored key hmem := by
    obtain ⟨a, value, hderives, hblock, hfound⟩ :=
      h.exists_stored (Iteration.mem_matching.1 hmem).1
    refine ⟨a, hderives, h.left.blockAt?_iff.1 ?_⟩
    rw [hblock, hfound, Option.getD_some]

/-- A scan comes to the keys that match, and can read the value of each. -/
theorem scan (color values : Bool) (d : SqlDatabase) (limit : Nat) (stem start : Bytes) :
    ∃ keys value, Listed log stem start keys value ∧
      Command.scanReport color (d.walk s.backend values limit (d.iterate stem start)).1
          (d.walk s.backend values limit (d.iterate stem start)).2 =
        Command.listing color values (keys.take limit) value := by
  refine ⟨_, _, h.listed d stem start, ?_⟩
  have hread : ∀ key ∈ (Iteration.ofSite s d stem start).matching stem start, ∀ c : Cursor,
      c.key? = some key → d.valueIf s.backend values c =
        (c, if values then some (.ok ((s.backend.blockOf? key).getD [])) else none) := by
    intro key hmem c hkey
    have hindexed := (Iteration.mem_matching.1 hmem).1
    obtain ⟨a, value, hderives, hblock, hfound⟩ := h.exists_stored hindexed
    have hvalue := (h.left.valueRead h.isOpen hindexed d hkey).derived a value hderives hblock
    cases values with
    | false => rfl
    | true => simp only [SqlDatabase.valueIf, if_true, hvalue, hfound, Option.getD_some]
  obtain ⟨last, hwalk, herror⟩ := SqlDatabase.walk_visits (h.begun d stem start) hread limit 0
  have hwalk : d.walk s.backend values limit (d.iterate stem start) = _ := hwalk
  rw [hwalk]
  exact Command.scanReport_listing herror ..

/-- A get prints the block at the address of its key, or that there is none. -/
theorem runGet (color : Bool) (d : SqlDatabase) (hderives : Derives raw a) :
    (Command.runGet color d s raw).2 = .line ((s.backend.blockAt? a).elim
      (Style.yellow.paint color "not found") Hex.encode) := by
  have hget := h.get raw a
  unfold Command.runGet
  rw [d.getRaw_eq, SqlDatabase.onFiled_of_derives hderives]
  rcases hfound : s.get raw a with ⟨after, result⟩
  rw [hfound] at hget
  obtain rfl : result = _ := hget
  cases s.backend.blockAt? a <;> rfl

theorem runHas (color : Bool) (d : SqlDatabase) (hderives : Derives raw a) :
    (Command.runHas color d s raw).2 = .line (if (s.backend.blockAt? a).isSome
      then Style.green.paint color "present" else Style.yellow.paint color "absent") := by
  have hhas := h.has a
  unfold Command.runHas
  rw [d.hasRaw_eq, SqlDatabase.onFiled_of_derives hderives]
  rcases hfound : s.has a with ⟨after, result⟩
  rw [hfound] at hhas
  obtain rfl : result = _ := hhas
  cases s.backend.blockAt? a <;> rfl

end Connected

namespace Command

variable {raw : Bytes} {e : KeyError}

/-- A key without an address is reported, whatever the tables have. -/
theorem runGet_underived (h : Scheme.keccakBlockstore.deriveRaw raw = .error e) (color : Bool)
    (d : SqlDatabase) (s : Site Relational) :
    (runGet color d s raw).2 = .ofError (.ofKeyError e) := by
  unfold runGet
  rw [d.getRaw_eq, SqlDatabase.onFiled_of_underived h]
  simp only [StoreError.isNotFound_ofKeyError]
  rfl

theorem runHas_underived (h : Scheme.keccakBlockstore.deriveRaw raw = .error e) (color : Bool)
    (d : SqlDatabase) (s : Site Relational) :
    (runHas color d s raw).2 = .ofError (.ofKeyError e) := by
  unfold runHas
  rw [d.hasRaw_eq, SqlDatabase.onFiled_of_underived h]

end Command

end KeyedBlocks
