import KeyedBlocks.Proofs.Batches.History
import KeyedBlocks.Proofs.Batches.Piecemeal
import KeyedBlocks.Proofs.Recency.Unreplaced

/-!
Batches that accept all they are given. Where no put or delete on a batch is refused or answered by
a warning, all keys can be filed and none is given up: what is pending is what was buffered, less
the writes that a later one of the same raw key replaces in its bucket. The same puts and deletes
can be made on the database itself, one by one.
-/
namespace KeyedBlocks

namespace Buffer

/-- No key that a log names has been given up. -/
def Keeps (b : Buffer) (log : List Deed) : Prop := ∀ deed ∈ log, deed.key ∈ b.keys deed.bucket

variable {b : Buffer} {h : Handle} {log : List Deed}

theorem Holds.keeps_add (hholds : b.Holds h log) (hkeeps : b.Keeps log) {deed : Deed}
    (haccepted : (b.add deed).2 = .ok ()) : (b.add deed).1.Keeps (log ++ [deed]) := by
  intro other hmem
  rcases List.mem_append.1 hmem with hold | hnew
  -- A key that is given up now would have been named in a warning.
  · by_contra hgone
    have hwarned := hholds.warned (hkeeps other hold) hgone
    rw [haccepted] at hwarned
    cases hwarned
  · obtain rfl := List.mem_singleton.1 hnew
    exact hholds.key_mem_add other

/-- A batch that has given up no key has the last put of each. -/
theorem Holds.putList_eq (hholds : b.Holds h log) (hkeeps : b.Keeps log) :
    b.putList = unreplaced Prod.fst (putsOf log) := by
  have hentries : b.putList = (Assoc.ofList (putsOf log)).rtake b.puts.capacity :=
    hholds.puts.entries
  rw [← Assoc.ofList_eq_unreplaced, hentries]
  apply rtake_of_keys (Assoc.ofList_keys_nodup _)
  intro key hkey
  obtain ⟨⟨_, a, value⟩, hmem, rfl⟩ := List.mem_map.1 hkey
  rw [← hentries]
  exact hkeeps _ (mem_putsOf.1 (Assoc.mem_of_mem_ofList hmem))

theorem Holds.deleteList_eq (hholds : b.Holds h log) (hkeeps : b.Keeps log) :
    b.deleteList = unreplaced Prod.fst (deletesOf log) := by
  have hentries : b.deleteList = (Assoc.ofList (deletesOf log)).rtake b.deletes.capacity :=
    hholds.deletes.entries
  rw [← Assoc.ofList_eq_unreplaced, hentries]
  apply rtake_of_keys (Assoc.ofList_keys_nodup _)
  intro key hkey
  obtain ⟨⟨_, a⟩, hmem, rfl⟩ := List.mem_map.1 hkey
  rw [← hentries]
  exact hkeeps _ (mem_deletesOf.1 (Assoc.mem_of_mem_ofList hmem))

end Buffer

namespace KeyForm

def bytes (k : KeyForm) : Bytes := k.through Key.raw id

theorem bytes_of_file {scheme : Scheme} {k : KeyForm} {found : Bytes × Address}
    (hfile : k.file scheme = .ok found) : found.1 = k.bytes := by
  have hpaired : ∀ (bytes : Bytes) (derived : Except KeyError Address),
      derived.map (bytes, ·) = .ok found → found.1 = bytes := by
    intro bytes derived hmap
    cases derived with
    | error e => cases hmap
    | ok a =>
      cases hmap
      rfl
  cases k with
  | typed key => exact hpaired key.raw (scheme.derive key) hfile
  | raw bytes =>
    rw [file_raw] at hfile
    exact hpaired bytes (scheme.deriveRaw bytes) hfile

end KeyForm

namespace Session

variable {β ω : Type} [Backend β ω]

def Call.Buffers (batch : Nat) : Call → Prop
  | .batchPut n _ _ | .batchDelete n _ => n = batch
  | _ => False

def putsInto (batch : Nat) (calls : List Call) : List (KeyForm × Bytes) :=
  calls.filterMap fun
    | .batchPut n k value => if n = batch then some (k, value) else none
    | _ => none

def deletesInto (batch : Nat) (calls : List Call) : List KeyForm :=
  calls.filterMap fun
    | .batchDelete n k => if n = batch then some k else none
    | _ => none

/-- Puts and then deletes as calls on the database itself. -/
def direct (puts : List (KeyForm × Bytes)) (deletes : List KeyForm) : List Call :=
  (puts.map fun entry => .put entry.1 entry.2) ++ deletes.map .delete

/-- All puts and deletes of a batch are accepted, without a warning. -/
def Accepts (h : Handle) (pace : β → Nat → β) (s : Session (Site β) Buffer) (batch : Nat)
    (calls : List Call) : Prop :=
  ∀ before call after, calls = before ++ call :: after → call.Buffers batch →
    ((s.run (h.facade pace) before).step (h.facade pace) call).2 = .did (.ok ())

/-- How a scheme files a put and a delete. -/
def FilesPut (scheme : Scheme) (entry : KeyForm × Bytes) (filed : Bytes × Address × Bytes) : Prop :=
  entry.1.file scheme = .ok (filed.1, filed.2.1) ∧ entry.2 = filed.2.2

def FilesDelete (scheme : Scheme) (k : KeyForm) (filed : Bytes × Address) : Prop :=
  k.file scheme = .ok filed

theorem FilesPut.bytes {scheme : Scheme} {entry : KeyForm × Bytes} {filed : Bytes × Address × Bytes}
    (h : FilesPut scheme entry filed) : entry.1.bytes = filed.1 :=
  (KeyForm.bytes_of_file h.1).symm

theorem FilesDelete.bytes {scheme : Scheme} {k : KeyForm} {filed : Bytes × Address}
    (h : FilesDelete scheme k filed) : k.bytes = filed.1 :=
  (KeyForm.bytes_of_file h).symm

/-- Puts and deletes are filed as they are entered in a log. -/
structure FiledAs (scheme : Scheme) (puts : List (KeyForm × Bytes)) (deletes : List KeyForm)
    (log : List Deed) : Prop where
  puts : List.Forall₂ (FilesPut scheme) puts (putsOf log)
  deletes : List.Forall₂ (FilesDelete scheme) deletes (deletesOf log)

variable {h : Handle} {pace : β → Nat → β} {s : Session (Site β) Buffer} {batch : Nat} {b : Buffer}
  {calls : List Call}

theorem step_batchPut (hbatch : s.batches[batch]? = some b) (k : KeyForm) (value : Bytes) :
    (s.step (h.facade pace) (.batchPut batch k value)).2 =
      .did (onFiled b (k.file b.scheme) (b.addPut value)).2 := by
  rw [← b.put_file k value]
  exact (onBatch_self hbatch _).2

theorem step_batchDelete (hbatch : s.batches[batch]? = some b) (k : KeyForm) :
    (s.step (h.facade pace) (.batchDelete batch k)).2 =
      .did (onFiled b (k.file b.scheme) b.addDelete).2 := by
  rw [← b.delete_file k]
  exact (onBatch_self hbatch _).2

/-- A key that was accepted can be filed. -/
theorem file_of_accepted {filed : Except KeyError (Bytes × Address)}
    {act : Bytes → Address → Buffer × Except StoreError Unit}
    (haccepted : (onFiled b filed act).2 = .ok ()) : ∃ found, filed = .ok found := by
  cases filed with
  | error e => cases haccepted
  | ok found => exact ⟨found, rfl⟩

theorem buffers_of_buffered {scheme : Scheme} {call : Call} {deed : Deed}
    (hdeed : buffered? scheme batch call = some deed) : call.Buffers batch := by
  have hbatch := batch?_of_buffered hdeed
  cases call with
  | batchPut n k value | batchDelete n k => exact Option.some.inj hbatch
  | _ => cases hdeed

theorem accepts_nil : s.Accepts h pace batch [] := by
  intro before call after hsplit
  exact absurd hsplit.symm (List.append_ne_nil_of_right_ne_nil before (List.cons_ne_nil call after))

theorem accepts_cons {call : Call}
    (hfirst : (s.step (h.facade pace) call).2 = .did (.ok ()))
    (hrest : (s.step (h.facade pace) call).1.Accepts h pace batch calls) :
    s.Accepts h pace batch (call :: calls) := by
  intro before other after hsplit hbuffers
  cases before with
  | nil =>
    obtain ⟨rfl, _⟩ := List.cons.inj hsplit
    exact hfirst
  | cons first before =>
    obtain ⟨rfl, hcalls⟩ := List.cons.inj hsplit
    exact hrest before other after hcalls hbuffers

theorem Accepts.front {call : Call} (haccepts : s.Accepts h pace batch (calls ++ [call])) :
    s.Accepts h pace batch calls := by
  intro before other after hsplit
  apply haccepts before other (after ++ [call])
  rw [hsplit, List.append_assoc, List.cons_append]

theorem Accepts.last {call : Call} (haccepts : s.Accepts h pace batch (calls ++ [call]))
    (hbuffers : call.Buffers batch) :
    ((s.run (h.facade pace) calls).step (h.facade pace) call).2 = .did (.ok ()) :=
  haccepts calls call [] rfl hbuffers

theorem Touches.keeps {log : List Deed} {call : Call} {next : Buffer} {reply : Reply}
    (htouches : Touches h.scheme batch b call next reply) (hholds : b.Holds h log)
    (hkeeps : b.Keeps log) (haccepted : call.Buffers batch → reply = .did (.ok ())) :
    next.Keeps (log ++ (buffered? h.scheme batch call).toList) := by
  cases htouches with
  | same hnone => rwa [hnone, Option.toList_none, List.append_nil]
  | buffers hsome =>
    rw [hsome]
    exact hholds.keeps_add hkeeps (Reply.did.inj (haccepted (buffers_of_buffered hsome)))

/-- A batch that accepts all it is given does not give up any of it. -/
theorem run_keeps (hbatch : s.batches[batch]? = some b) (hempty : b.Holds h [])
    (hkept : ∀ call ∈ calls, call ≠ .batchReset batch) (haccepts : s.Accepts h pace batch calls) :
    ∃ last, (s.run (h.facade pace) calls).batches[batch]? = some last ∧
      last.Holds h (batchLog h.scheme batch calls) ∧
      last.Keeps (batchLog h.scheme batch calls) := by
  induction calls using List.reverseRecOn with
  | nil => exact ⟨b, hbatch, hempty, fun deed hmem => absurd hmem List.not_mem_nil⟩
  | append_singleton calls call ih =>
    obtain ⟨old, hold, hholds, hkeeps⟩ :=
      ih (fun other hmem => hkept other (List.mem_append_left _ hmem)) haccepts.front
    obtain ⟨next, hnext, htouches⟩ :=
      step_touches pace hold hholds.scheme (hkept call (by simp))
    rw [run_concat, batchLog_concat]
    exact ⟨next, hnext, htouches.holds hholds, htouches.keeps hholds hkeeps haccepts.last⟩

theorem putsInto_concat (batch : Nat) (calls : List Call) (call : Call) :
    putsInto batch (calls ++ [call]) = putsInto batch calls ++ putsInto batch [call] :=
  List.filterMap_append

theorem deletesInto_concat (batch : Nat) (calls : List Call) (call : Call) :
    deletesInto batch (calls ++ [call]) = deletesInto batch calls ++ deletesInto batch [call] :=
  List.filterMap_append

/-- One more call that is accepted is filed as it is entered in the log. -/
theorem filedAs_call (hbatch : s.batches[batch]? = some b) (hscheme : b.scheme = h.scheme)
    {call : Call} (haccepted : call.Buffers batch →
      (s.step (h.facade pace) call).2 = .did (.ok ())) :
    FiledAs h.scheme (putsInto batch [call]) (deletesInto batch [call])
      (buffered? h.scheme batch call).toList := by
  cases call with
  | batchPut n k value =>
    by_cases hn : n = batch
    · subst hn
      have hreply := haccepted rfl
      rw [step_batchPut hbatch, hscheme] at hreply
      obtain ⟨found, hfile⟩ := file_of_accepted (Reply.did.inj hreply)
      simp only [putsInto, deletesInto, buffered?, List.filterMap, if_true, hfile, Except.toOption,
        Option.map_some, Option.toList_some]
      exact ⟨.cons ⟨hfile, rfl⟩ .nil, .nil⟩
    · simp only [putsInto, deletesInto, buffered?, List.filterMap, if_neg hn, Option.toList_none]
      exact ⟨.nil, .nil⟩
  | batchDelete n k =>
    by_cases hn : n = batch
    · subst hn
      have hreply := haccepted rfl
      rw [step_batchDelete hbatch, hscheme] at hreply
      obtain ⟨found, hfile⟩ := file_of_accepted (Reply.did.inj hreply)
      simp only [putsInto, deletesInto, buffered?, List.filterMap, if_true, hfile, Except.toOption,
        Option.map_some, Option.toList_some]
      exact ⟨.nil, .cons hfile .nil⟩
    · simp only [putsInto, deletesInto, buffered?, List.filterMap, if_neg hn, Option.toList_none]
      exact ⟨.nil, .nil⟩
  | _ => exact ⟨.nil, .nil⟩

theorem FiledAs.append {scheme : Scheme} {puts puts' : List (KeyForm × Bytes)}
    {deletes deletes' : List KeyForm} {log log' : List Deed}
    (hfront : FiledAs scheme puts deletes log) (hback : FiledAs scheme puts' deletes' log') :
    FiledAs scheme (puts ++ puts') (deletes ++ deletes') (log ++ log') := by
  constructor
  · rw [putsOf, List.filterMap_append]
    exact List.rel_append hfront.puts hback.puts
  · rw [deletesOf, List.filterMap_append]
    exact List.rel_append hfront.deletes hback.deletes

theorem run_filedAs (hbatch : s.batches[batch]? = some b) (hempty : b.Holds h [])
    (hkept : ∀ call ∈ calls, call ≠ .batchReset batch) (haccepts : s.Accepts h pace batch calls) :
    FiledAs h.scheme (putsInto batch calls) (deletesInto batch calls)
      (batchLog h.scheme batch calls) := by
  induction calls using List.reverseRecOn with
  | nil => exact ⟨.nil, .nil⟩
  | append_singleton calls call ih =>
    have hearlier : ∀ other ∈ calls, other ≠ .batchReset batch := fun other hmem =>
      hkept other (List.mem_append_left _ hmem)
    obtain ⟨old, hold, hholds⟩ := run_holds pace hbatch hempty hearlier
    rw [putsInto_concat, deletesInto_concat, batchLog_concat]
    exact (ih hearlier haccepts.front).append (filedAs_call hold hholds.scheme haccepts.last)

/-- Calls that request deeds make them. -/
theorem run_requests {calls : List Call} {deeds : List Deed}
    (hmatch : List.Forall₂
      (fun call deed => ∀ batches, request? h batches call = some deed.request) calls deeds)
    (s : Session (Site β) Buffer) :
    (s.run (h.facade pace) calls).site = s.site.makeAll deeds := by
  induction hmatch generalizing s with
  | nil => rfl
  | @cons call deed calls deeds hfirst _ ih =>
    rw [run, List.foldl_cons, step_of_request (hfirst s.batches)]
    exact ih _

/-- Puts and deletes are made on the database itself as the deeds that they are filed as. -/
theorem run_direct {puts : List (KeyForm × Bytes)} {deletes : List KeyForm}
    {filedPuts : List (Bytes × Address × Bytes)} {filedDeletes : List (Bytes × Address)}
    (hputs : List.Forall₂ (FilesPut h.scheme) puts filedPuts)
    (hdeletes : List.Forall₂ (FilesDelete h.scheme) deletes filedDeletes)
    (s : Session (Site β) Buffer) :
    (s.run (h.facade pace) (direct puts deletes)).site =
      s.site.makeAll (Deed.inOrder filedPuts filedDeletes) := by
  apply run_requests
  apply List.rel_append
  · refine List.forall₂_map_left_iff.2 (List.forall₂_map_right_iff.2 (hputs.imp ?_))
    intro entry filed hfiles batches
    simp only [request?, hfiles.1, hfiles.2]
    rfl
  · refine List.forall₂_map_left_iff.2 (List.forall₂_map_right_iff.2 (hdeletes.imp ?_))
    intro k filed hfile batches
    have hfile : k.file h.scheme = .ok filed := hfile
    simp only [request?, hfile]
    rfl

end Session

end KeyedBlocks
