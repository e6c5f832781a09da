import Dispatch.Proofs.Store.Additions

/-!
# Saving what was loaded

An addition writes all records anew, also those of other domains.  So what is loaded must
survive being saved: `LedgerStore.save_keeps_loaded` says that a ledger of any origin that is
saved as it was loaded is loaded again as the same ledger, with all members in their places
and no zero with a sign, and that saving it once more writes the same bytes.

Numbers out of range are the one exception.  They are read as infinite and can stand where
a ledger is not checked; after they were saved there is null in their place.
-/

namespace Dispatch

namespace Ledger

theorem isRead_of_ofText {path text : String} {ledger : Value}
    (h : ofText path text = .ok ledger) : ledger.IsRead := by
  rw [ofText] at h
  split at h
  next => cases h
  next value hread =>
    obtain ⟨_, rfl⟩ := Schema.accepts_of_checkValue h
    exact Json.isRead_of_read? hread

theorem isRead_empty : empty.IsRead := by
  have htable : (Value.table []).IsRead := .table Dict.isOrdered_nil (by simp)
  refine .table (by decide) (List.forall_mem_singleton.mpr (.table (by decide) ?_))
  simp [htable]

/-- A plain ledger and its document have the same text. -/
theorem fileText_reduced {ledger reduced : Value} (h : ledger.IsPlain)
    (hreduced : ledger.serial? = some reduced) : fileText reduced = fileText ledger := by
  have hdocument := h.isDocument hreduced
  rw [fileText, fileText, Json.write_of_isPlain h, Json.write_of_isPlain hdocument.isPlain,
    hdocument.serial?_eq, hreduced]

end Ledger

namespace LedgerStore

open Ledger

variable {store : LedgerStore}

theorem isRead_of_ledgerIn {tree : FileTree} {ledger : Value}
    (h : store.ledgerIn tree = .ok ledger) : ledger.IsRead := by
  rw [ledgerIn] at h
  split at h
  next => exact isRead_of_ofText h
  next =>
    cases h
    exact isRead_empty
  next => cases h

section

variable (hnames : ∀ name ∈ store.root, FileTree.IsName name)

include hnames

/-- Where a text was saved, saving a ledger with this text changes nothing. -/
theorem save_again {ledger other : Value} {world world' : World Devices} {done : Unit}
    (hsave : store.save ledger world = (.ok done, world'))
    (hsame : fileText other = fileText ledger) : store.save other world' = (.ok (), world') := by
  obtain ⟨made, text, written, hmade, htext, hwritten, rfl⟩ := (save_eq_ok_iff store).mp hsave
  have hroot : written.IsDirectory store.root := by
    obtain ⟨hdirectory, _, rfl⟩ := FileTree.write_eq_ok_iff.mp hwritten
    exact hdirectory.put _
  exact (save_eq_ok_iff store).mpr ⟨written, text, written,
    FileTree.makeDirectory_eq_self hnames hroot, hsame.trans htext,
    FileTree.write_again hwritten, rfl⟩

/--
A ledger of any origin that was loaded can be saved.  It is loaded again as the same ledger
but for the signs of zeros, unless it has numbers out of range; and saving what is loaded
again writes the same bytes, so that nothing changes any more.
-/
theorem save_keeps_loaded {world : World Devices} (htree : world.tree.IsRooted) {ledger : Value}
    (hload : store.load world = (.ok ledger, world)) :
    ∃ text saved again, fileText ledger = .ok text ∧
      store.save ledger world = (.ok (), saved) ∧
      saved.tree.read store.ledgerFile = .ok (Utf8.encode text) ∧
      store.load saved = (.ok again, saved) ∧
      (ledger.hasFiniteNumbers = true → again = ledger.fullySettled) ∧
      fileText again = .ok text ∧ store.save again saved = (.ok (), saved) := by
  obtain ⟨hledger, _⟩ := (load_eq_ok_iff store).mp hload
  have hvalid := isLedger_of_ledgerIn hledger
  obtain ⟨again, hagain⟩ := hvalid.hasTables.exists_serial
  obtain ⟨saved, hsave, _⟩ := exists_save world hnames htree hledger hvalid.plain hagain
  have hloaded := ledgerIn_of_save hvalid.plain hagain hsave
  have haccepted := (Schema.keepsReductions schema).serial hvalid.plain hagain hvalid.accepted
  rw [Schema.checkValue_of_accepts _ _ haccepted] at hloaded
  have hsame := fileText_reduced hvalid.plain hagain
  obtain ⟨made, text, written, _, htext, hwritten, rfl⟩ := (save_eq_ok_iff store).mp hsave
  refine ⟨text, _, again, htext, hsave, FileTree.read_of_write hwritten,
    (load_eq_ok_iff store).mpr ⟨hloaded, rfl⟩, fun hfinite => ?_, hsame.trans htext,
    save_again hnames hsave hsame⟩
  have hjson := (isRead_of_ledgerIn hledger).isJson hfinite
  rw [hjson.serial?_eq] at hagain
  exact (Option.some.inj hagain).symm

end

/-! ## A ledger of another origin -/

/--
The file of a ledger with repeated members, an index behind a name, the reserved key, an
escaped character, a zero with a sign, a byte that is no text, and two names that differ in
a surrogate that stands alone.
-/
def foreignFile : List UInt8 :=
  Utf8.encode ("\x7b\"entries\":\x7b\"data\":0,\"models\":\x7b\"b\":[],\"7\":[\x7b\"version\":1," ++
    "\"file\":\"\",\"version\":2,\"created_at\":\"\",\"domain_name\":\"") ++ 0xFF ::
  Utf8.encode ("\"\x7d],\"__proto__\":[]\x7d,\"candidates\":\x7b\x7d,\"data\":\x7b\x7d\x7d," ++
    "\"a\\n\":-0,\"\\ud800\":\"\\udc00\\ud800\",\"\\uD801\":\"\\ud83d\\ude00\"\x7d")

/-- The world in which a store has that file. -/
def foreignWorld : World Devices :=
  { World.fresh with
    tree := (FileTree.empty.put ["store"] .directory).put ["store", "ams_store.json"]
      (.file foreignFile) }

theorem save_keeps_loaded_foreign :
    (∀ name ∈ ["store"], FileTree.IsName name) ∧ foreignWorld.tree.IsRooted ∧
    ∃ ledger text saved, (⟨["store"]⟩ : LedgerStore).load foreignWorld =
        (.ok ledger, foreignWorld) ∧
      ledger.textMember? (Text.ofUnits [0xD800]) = some (Text.ofUnits [0xDC00, 0xD800]) ∧
      ledger.textMember? (Text.ofUnits [0xD801]) = some "😀" ∧
      ledger.hasFiniteNumbers = true ∧ fileText ledger = .ok text ∧
      (⟨["store"]⟩ : LedgerStore).save ledger foreignWorld = (.ok (), saved) ∧
      saved.tree.read ["store", "ams_store.json"] = .ok (Utf8.encode text) ∧
      (⟨["store"]⟩ : LedgerStore).load saved = (.ok ledger.fullySettled, saved) ∧
      fileText ledger.fullySettled = .ok text ∧
      (⟨["store"]⟩ : LedgerStore).save ledger.fullySettled saved = (.ok (), saved) := by
  have hnames : ∀ name ∈ ["store"], FileTree.IsName name := by simp [FileTree.IsName]
  have hread : ((⟨["store"]⟩ : LedgerStore).ledgerIn foreignWorld.tree).toOption.any
      (fun ledger => ledger.hasFiniteNumbers &&
        ledger.textMember? (Text.ofUnits [0xD800]) == some (Text.ofUnits [0xDC00, 0xD800]) &&
        ledger.textMember? (Text.ofUnits [0xD801]) == some "😀") = true := by
    decide +kernel
  rcases hledger : (⟨["store"]⟩ : LedgerStore).ledgerIn foreignWorld.tree with _ | ledger
  · rw [hledger] at hread
    cases hread
  rw [hledger] at hread
  simp only [Except.toOption, Option.any_some, Bool.and_eq_true, beq_iff_eq] at hread
  obtain ⟨⟨hfinite, hfirst⟩, hsecond⟩ := hread
  have hload : (⟨["store"]⟩ : LedgerStore).load foreignWorld = (.ok ledger, foreignWorld) :=
    (load_eq_ok_iff _).mpr ⟨hledger, rfl⟩
  obtain ⟨text, saved, again, htext, hsave, hfile, hagain, hsettled, hrest⟩ :=
    save_keeps_loaded hnames (isRooted_withLedger foreignFile) hload
  obtain rfl := hsettled hfinite
  exact ⟨hnames, isRooted_withLedger foreignFile, ledger, text, saved, hload, hfirst,
    hsecond, hfinite, htext, hsave, hfile, hagain, hrest⟩

end LedgerStore

end Dispatch
