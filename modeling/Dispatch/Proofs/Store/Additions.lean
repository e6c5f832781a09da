import Dispatch.Proofs.Json.Settled
import Dispatch.Proofs.Store.Log
import Dispatch.Proofs.Store.Searching

/-!
# Adding to any ledger

A ledger need not have been written by a store.  Its records can stand in any order, versions
can be repeated or left out, and there can be members that nobody asks for.

`LedgerStore.add_appends` says what an addition to such a ledger does.  The record gets one
more than the largest version of its domain and is appended to the list of the domain, and is
the latest one from then on.  All else in the ledger stays as it was, but for the signs of
zeros.  An addition that fails, for whatever reason, has not touched a file.
-/

namespace Dispatch

namespace Ledger

open Value

/-! ## Ledgers with a domain set, as they are read again -/

/-- An object with a member bound anew is written with what that member is written as. -/
theorem serial?_setMember {value member reduced : Value} (h : value.IsJson)
    (hmember : member.serial? = some reduced) (hplain : member.IsPlain) (name : String) :
    (setMember value name member).serial? = some (setMember value.fullySettled name reduced) := by
  cases h with
  | @table members hordered hmembers =>
      let kept (value : Value) : Value := value.serial?.getD .missing
      have hkept : kept member = reduced := by
        simp only [kept, hmember, Option.getD_some]
      have hsettled : members.map (fun entry => (entry.1, kept entry.2)) =
          fullySettledMembers members := by
        rw [fullySettledMembers_eq_map]
        apply List.map_congr_left
        intro entry hentry
        simp only [kept, (hmembers entry hentry).serial?_eq, Option.getD_some]
      have hserial : ∀ entry ∈ Dict.insert members name member,
          entry.2.IsPlain ∧ entry.2.serial? = some (kept entry.2) := by
        intro entry hentry
        rcases Dict.mem_of_mem_insert hentry with rfl | hold
        · exact ⟨hplain, by rw [hkept, hmember]⟩
        · have hjson := hmembers entry hold
          exact ⟨hjson.isPlain, by simp only [kept, hjson.serial?_eq, Option.getD_some]⟩
      rw [setMember, serial?_table fun entry hentry => (hserial entry hentry).1,
        serialMembers_eq_map fun entry hentry => (hserial entry hentry).2,
        ← Dict.insert_map, hsettled, hkept]
      rfl
  | null => exact IsJson.null.serial?_eq
  | bool b => exact (IsJson.bool b).serial?_eq
  | number hx => exact (IsJson.number hx).serial?_eq
  | text s => exact (IsJson.text s).serial?_eq
  | list hitems => exact (IsJson.list hitems).serial?_eq

section

variable {ledger : Value} (hjson : ledger.IsJson) (h : HasTables ledger)

include hjson h

/-- A ledger with finite numbers is read again as it was, with the documents of the records. -/
theorem serial?_setRecords (entry : StoreEntry) (subject : String) {records : List Value}
    (hrecords : ∀ record ∈ records, record.IsPlain) :
    (setRecords ledger entry subject records).serial? =
      some (setRecords ledger.fullySettled entry subject (serialItems records)) := by
  have htable := h.eq_entryTable entry
  have hentries : (ledger.member "entries").IsJson := by
    rcases hjson.member "entries" with hmissing | hentries
    · rw [hmissing] at htable
      cases htable
    · exact hentries
  have hdomains : ((ledger.member "entries").member entry.name).IsJson := by
    rcases hentries.member entry.name with hmissing | hdomains
    · rw [hmissing] at htable
      cases htable
    · exact hdomains
  have hlist : (Value.list records).IsPlain := .list hrecords
  have hinner := isPlain_setMember hdomains.isPlain hlist subject
  have houter := isPlain_setMember hentries.isPlain hinner entry.name
  rw [setRecords, setRecords, member_fullySettled, member_fullySettled]
  exact serial?_setMember hjson (serial?_setMember hentries
    (serial?_setMember hdomains rfl hlist subject) hinner entry.name) houter "entries"

theorem hasTables_fullySettled : HasTables ledger.fullySettled where
  plain := (hjson.isPlain.isDocument hjson.serial?_eq).isPlain
  table entry := ⟨_, h.member_serial hjson.serial?_eq entry⟩

end

theorem get?_entryTable_fullySettled (ledger : Value) (entry : StoreEntry) (name : String) :
    (entryTable ledger.fullySettled entry).get? name =
      ((entryTable ledger entry).get? name).map Value.fullySettled := by
  rw [entryTable, member_fullySettled, member_fullySettled, members_fullySettled, Dict.get?_map]
  rfl

/-- A record more in the list of a domain, and all else as it was, but for the signs of zeros. -/
structure Appends (entry : StoreEntry) (subject : String) (records : List Value)
    (record : Dict Value) (before after : Value) : Prop where
  eq : after = setRecords before.fullySettled entry subject
    (records.map fullySettled ++ [.table record])
  listed : (entryTable after entry).get? subject =
    some (.list (records.map fullySettled ++ [.table record]))
  domains : ∀ other name, other ≠ entry ∨ name ≠ subject →
    (entryTable after other).get? name =
      ((entryTable before other).get? name).map fullySettled
  members : ∀ name, name ≠ "entries" → after.member name = (before.member name).fullySettled
  entries : ∀ name, name ≠ entry.name →
    (after.member "entries").member name = ((before.member "entries").member name).fullySettled

theorem appends_setRecords {ledger : Value} (hjson : ledger.IsJson) (h : HasTables ledger)
    (entry : StoreEntry) (subject : String) (records : List Value) (record : Dict Value) :
    Appends entry subject records record ledger (setRecords ledger.fullySettled entry subject
      (records.map fullySettled ++ [.table record])) := by
  have hsettled := hasTables_fullySettled hjson h
  have hledger := hsettled.exists_eq_table
  have hentries := hsettled.exists_entries
  refine ⟨rfl, ?_, fun other name hother => ?_, fun name hname => ?_, fun name hname => ?_⟩
  · rw [entryTable_setRecords hsettled, if_pos rfl, Dict.get?_insert, if_pos rfl]
  · rw [entryTable_setRecords hsettled, ← get?_entryTable_fullySettled]
    split
    next hentry =>
      rw [Dict.get?_insert, if_neg (hother.resolve_left (not_not.mpr hentry)), hentry]
    next => rfl
  · rw [setRecords, member_setMember hledger, if_neg hname, member_fullySettled]
  · rw [setRecords, member_setMember hledger, if_pos rfl, member_setMember hentries,
      if_neg hname, member_fullySettled, member_fullySettled]

/-! ## Records with room for another one -/

/--
A ledger with finite numbers, in which a domain has accepted records that leave room for
another version.  The domain can be new, under a name that no table answers to.
-/
structure HasRoomFor (ledger : Value) (entry : StoreEntry) (subject : String)
    (records : List Value) : Prop where
  json : ledger.IsJson
  found : (entryTable ledger entry).get? subject = some (.list records) ∨
    (entryTable ledger entry).get? subject = none ∧ subject ∉ Dict.builtinNames ∧ records = []
  accepted : ∀ record ∈ records, recordSchema.accepts record = true
  small : ∀ record ∈ records, ∀ version, record.member "version" = .number version →
    version.less (.ofInt (2 ^ 53 : Nat)) = true

namespace HasRoomFor

variable {ledger : Value} {entry : StoreEntry} {subject : String} {records : List Value}
  (h : HasRoomFor ledger entry subject records)

include h

theorem recordList_eq : recordList (stored (entryTable ledger entry) subject) = .ok records := by
  rcases h.found with hlisted | ⟨hnone, hname, rfl⟩
  · rw [stored, hlisted, recordList]
  · rw [stored, hnone]
    simp only [if_neg hname, recordList]

theorem isJson_record : ∀ record ∈ records, record.IsJson := by
  rcases h.found with hlisted | ⟨_, _, rfl⟩
  · have htable : ∀ domain ∈ entryTable ledger entry, domain.2.IsJson := by
      rcases h.json.member "entries" with hmissing | hentries
      · rw [entryTable, hmissing]
        simp [member, Value.members, Dict.get?]
      · exact hentries.of_mem_tableMember
    cases htable _ (Dict.mem_of_get? hlisted) with
    | list hitems => exact hitems
  · simp

/-- The versions are whole numbers below `2 ^ 53`. -/
theorem exists_versions :
    ∃ versions, HasVersions records versions ∧ ∀ version ∈ versions, version ≤ 2 ^ 53 - 1 := by
  apply exists_hasVersions
  intro record hrecord
  obtain ⟨x, hx, hcount⟩ := member_version_of_accepts (h.isJson_record record hrecord).isPlain
    (h.accepted record hrecord)
  obtain ⟨n, _, hbound, hn⟩ := hcount.exists_eq_ofInt (h.small record hrecord x hx)
  exact ⟨n, by omega, by rw [hx, hn]⟩

end HasRoomFor

/-- The largest of some versions, or zero if there are none. -/
theorem foldl_max_eq (versions : List Nat) : versions.foldl max 0 = versions.max?.getD 0 := by
  rw [List.foldl_max, Nat.zero_max]

/-- A last record with a larger version than all before it is the latest one. -/
theorem Finds.latest_concat {records sorted : List Value} {record : Value}
    {found : StoreVersion → Except Failure (List Value)}
    (h : Finds (records ++ [record]) sorted found)
    (hless : ∀ other ∈ records, versionLess other record = true) :
    found .latest = .ok [record] := by
  have hfound := h.latest
  rcases hlast : sorted.getLast? with _ | last
  · rw [hlast, Option.toList_none] at hfound
    exact absurd (h.latest_eq_nil_iff.mp hfound) (by simp)
  rw [hlast, Option.toList_some] at hfound
  obtain ⟨hmem, hlargest, _⟩ := h.isLatest last hfound
  rcases List.mem_append.mp hmem with hbefore | hsame
  · have hlarger := hlargest record (by simp)
    rw [hless last hbefore] at hlarger
    cases hlarger
  · rw [hfound, List.mem_singleton.mp hsame]

section

variable {ledger : Value} {entry : StoreEntry} {subject : String} {records : List Value}
  (h : HasRoomFor ledger entry subject records) {largest : Nat} (hlargest : largest + 1 ≤ 2 ^ 53)
  {record : Dict Value} (hrecord : IsAdded subject (largest + 1) record)

include h

theorem HasRoomFor.serialItems_eq : serialItems records = records.map fullySettled := by
  rw [serialItems_eq_map]
  apply List.map_congr_left
  intro r hr
  rw [(h.isJson_record r hr).serial?_eq, Option.getD_some]

include hlargest hrecord

/-- Read again, the list of the domain has the document of the record at its end. -/
theorem HasRoomFor.serialItems_concat : serialItems (records ++ [.table record]) =
    records.map fullySettled ++ [.table (keptRecord record)] := by
  rw [serialItems_append, h.serialItems_eq, serialItems, hrecord.serial?_table hlargest]
  rfl

/-- With the record the ledger can be written, and what is read again is accepted. -/
theorem HasRoomFor.accepts_added (hledger : IsLedger ledger)
    (hversion : nextVersion records = .ok (.ofInt (largest + 1 : Nat))) :
    (setRecords ledger entry subject (records ++ [.table record])).IsPlain ∧
      (setRecords ledger entry subject (records ++ [.table record])).serial? =
        some (setRecords ledger.fullySettled entry subject
          (records.map fullySettled ++ [.table (keptRecord record)])) ∧
      schema.accepts (setRecords ledger.fullySettled entry subject
        (records.map fullySettled ++ [.table (keptRecord record)])) = true := by
  have hserial := h.serialItems_concat hlargest hrecord
  obtain ⟨given, createdAt, hgiven, hthreshold, rfl⟩ := hrecord
  have hplain := isPlain_of_mem_added hledger h.recordList_eq hgiven
    (.ofInt (largest + 1 : Nat)) createdAt
  have hreduced := serial?_setRecords h.json hledger.hasTables entry subject hplain
  have haccepted := accepts_reduced hledger h.recordList_eq hgiven hreduced hversion hthreshold
  rw [hserial] at hreduced haccepted
  exact ⟨(hledger.hasTables.setRecords entry subject _ hplain).plain, hreduced, haccepted⟩

/-- The record is the latest one where its domain has that list. -/
theorem HasRoomFor.search_latest {versions : List Nat} (hversions : HasVersions records versions)
    (hbound : ∀ version ∈ versions, version ≤ largest) {reduced : Value}
    (hlisted : (entryTable reduced entry).get? subject =
      some (.list (records.map fullySettled ++ [.table (keptRecord record)]))) :
    search reduced entry subject .latest = .ok [.table (keptRecord record)] := by
  have hsettled : HasVersions (records.map fullySettled) versions := by
    rw [← h.serialItems_eq]
    apply hversions.serialItems fun r hr => (h.isJson_record r hr).isPlain
    exact fun version hversion => Nat.le_trans (hbound version hversion) (by omega)
  have hbefore : ∀ r ∈ records.map fullySettled,
      ∃ version ≤ largest, r.member "version" = .number (.ofInt (version : Nat)) := by
    intro r hr
    obtain ⟨version, hversion, hmember⟩ := hsettled.exists_version hr
    exact ⟨version, hbound version hversion, hmember⟩
  have hlast := hrecord.member_version hlargest
  have hversioned : ∀ r ∈ records.map fullySettled ++ [.table (keptRecord record)],
      IsVersioned r := by
    intro r hr
    rcases List.mem_append.mp hr with hr | hr
    · obtain ⟨version, hle, hmember⟩ := hbefore r hr
      exact ⟨_, hmember, Number.isFinite_ofInt (by omega)⟩
    · rw [List.mem_singleton.mp hr]
      exact ⟨_, hlast, Number.isFinite_ofInt hlargest⟩
  have hfound : recordsToSearch (stored (entryTable reduced entry) subject) =
      .ok (records.map fullySettled ++ [.table (keptRecord record)]) := by
    rw [stored, hlisted]
    rfl
  obtain ⟨sorted, hfinds⟩ := finds_select hversioned
  rw [search_of_records hfound]
  apply hfinds.latest_concat
  intro other hother
  obtain ⟨version, hle, hmember⟩ := hbefore other hother
  rw [versionLess, version?_of_member hmember, version?_of_member hlast]
  simp only [Number.less_ofInt (Nat.le_trans hle (by omega)) hlargest, decide_eq_true_eq]
  omega

end

end Ledger

namespace LedgerStore

open Ledger

section

variable {store : LedgerStore} {tree : FileTree} {ledger : Value}
  (hnames : ∀ name ∈ store.root, FileTree.IsName name) (htree : tree.IsRooted)
  (hledger : store.ledgerIn tree = .ok ledger)

include htree hledger

theorem get?_ledgerFile_ne : tree.get? store.ledgerFile ≠ some .directory := by
  intro hthere
  have hroot : tree.IsDirectory store.root := by
    have habove := htree store.root "ams_store.json" (by rw [← ledgerFile, hthere]; simp)
    exact htree.isDirectory habove
  have hread := FileTree.read_eq_isDirectory hroot hthere
  rw [ledgerIn, ledgerFile, hread] at hledger
  cases hledger

/-- Where a ledger can be loaded, no file is in the place of the root or above it. -/
theorem ne_file_of_ledgerIn {above : List String} (habove : above <+: store.root)
    (bytes : List UInt8) : tree.get? above ≠ some (.file bytes) := by
  rw [ledgerIn] at hledger
  split at hledger
  next content hread =>
    have hroot := (FileTree.read_eq_ok_iff.mp hread).1
    simp [hroot above habove]
  next hread => exact htree.ne_file_of_read hread habove bytes
  next => cases hledger

include hnames

/-- Where a ledger can be loaded, one can be written. -/
theorem exists_written (bytes : List UInt8) :
    ∃ made written, tree.makeDirectory store.root = .ok made ∧
      made.write store.ledgerFile bytes = .ok written ∧ written.IsRooted := by
  have hfiles : ∀ above, above <+: store.root →
      ∀ bytes, tree.get? ([] ++ above) ≠ some (.file bytes) :=
    fun above habove bytes => ne_file_of_ledgerIn htree hledger habove bytes
  obtain ⟨made, hmade⟩ := FileTree.exists_makeFrom hnames hfiles
  have hrooted : made.IsRooted := htree.makeFrom hnames rfl hmade
  have hroot : made.IsDirectory store.root := FileTree.isDirectory_of_makeDirectory hnames hmade
  have hplace : made.get? store.ledgerFile ≠ some .directory := by
    have hbelow : ¬store.ledgerFile <+: store.root := by
      intro hprefix
      have hlength := hprefix.length_le
      rw [ledgerFile, List.length_append, List.length_singleton] at hlength
      omega
    rw [FileTree.get?_of_makeDirectory hnames hmade hbelow]
    exact get?_ledgerFile_ne htree hledger
  refine ⟨made, _, hmade, FileTree.write_eq_ok_iff.mpr ⟨hroot, hplace, rfl⟩, ?_⟩
  exact hrooted.put (hroot store.root List.prefix_rfl) (Or.inr hplace)

end

section

variable {store : LedgerStore} {world : World Devices}
  (hnames : ∀ name ∈ store.root, FileTree.IsName name) (htree : world.tree.IsRooted)
  {entry : StoreEntry} {subject : String} {given : Dict Value} (hgiven : IsNewRecord given)

include hnames htree

variable (world) in
/-- Where a ledger can be loaded, any one with a document can be saved. -/
theorem exists_save {ledger saved reduced : Value}
    (hledger : store.ledgerIn world.tree = .ok ledger) (hplain : saved.IsPlain)
    (hreduced : saved.serial? = some reduced) :
    ∃ world', store.save saved world = (.ok (), world') ∧ world'.tree.IsRooted := by
  obtain ⟨text, htext, _⟩ := ofText_fileText hplain hreduced store.ledgerPath
  obtain ⟨made, written, hmade, hwritten, hrooted⟩ :=
    exists_written hnames htree hledger (Utf8.encode text)
  exact ⟨_, (save_eq_ok_iff store).mpr ⟨made, text, written, hmade, htext, hwritten, rfl⟩, hrooted⟩

include hgiven

/-- An addition that fails has failed before anything was written. -/
theorem tree_eq_of_add_error {world' : World Devices} {failure : Failure}
    (hadd : store.add entry subject given world = (.error failure, world')) :
    world'.tree = world.tree := by
  rcases Operation.bind_eq_error_iff.mp hadd with hprepare | ⟨⟨saved, added⟩, between, hprepare,
    hrest⟩
  · have hkept := (store.prepareAdd_keeps_tree entry subject given world).1
    rw [hprepare] at hkept
    exact hkept
  obtain ⟨ledger, records, version, instant, hledger, hrecords, _, _, rfl, rfl, rfl⟩ :=
    (prepareAdd_eq_ok_iff store).mp hprepare
  have hvalid := isLedger_of_ledgerIn hledger
  have htables := hvalid.hasTables.setRecords entry subject _
    (isPlain_of_mem_added hvalid hrecords hgiven version instant.isoText)
  obtain ⟨reduced, hreduced⟩ := htables.exists_serial
  obtain ⟨last, hsave, _⟩ :=
    exists_save (afterReading world) hnames htree hledger htables.plain hreduced
  rcases Operation.bind_eq_error_iff.mp hrest with hfailed | ⟨done, after, _, hanswer⟩
  · rw [hsave] at hfailed
    cases hfailed
  · cases hanswer

/--
An addition to a ledger that has room appends the record with the next version, and it is
the latest one afterwards.  An addition that fails leaves all files as they were.
-/
theorem add_appends :
    (∀ failure world', store.add entry subject given world = (.error failure, world') →
      world'.tree = world.tree) ∧
    ∀ ledger records instant, store.load world = (.ok ledger, world) →
      HasRoomFor ledger entry subject records → HasFiniteThreshold given →
      world.store.now.1 = some instant →
      ∃ versions added world' ledger', HasVersions records versions ∧
        store.add entry subject given world = (.ok added, world') ∧
        added = completeRecord given subject (.ofInt (versions.max?.getD 0 + 1 : Nat))
          instant.isoText ∧
        (∀ version ∈ versions, version < versions.max?.getD 0 + 1) ∧
        store.load world' = (.ok ledger', world') ∧
        Appends entry subject records (keptRecord added) ledger ledger' ∧
        store.search subject entry .latest world' = (.ok [.table (keptRecord added)], world') ∧
        world'.tree.IsRooted := by
  refine ⟨fun failure world' hadd => tree_eq_of_add_error hnames htree hgiven hadd, ?_⟩
  intro ledger records instant hload hroom hthreshold hclock
  obtain ⟨hledger, _⟩ := (load_eq_ok_iff store).mp hload
  have hvalid := isLedger_of_ledgerIn hledger
  obtain ⟨versions, hversions, hsmall⟩ := hroom.exists_versions
  have hbound : ∀ version ∈ versions, version ≤ versions.max?.getD 0 := by
    rw [← foldl_max_eq]
    exact (le_foldl_max versions 0).2
  have hlargest : versions.max?.getD 0 + 1 ≤ 2 ^ 53 := by
    have hle : versions.max?.getD 0 ≤ 2 ^ 53 - 1 := by
      rw [← foldl_max_eq]
      exact foldl_max_le (Nat.zero_le _) hsmall
    omega
  have hversion := hversions.nextVersion (foldl_max_eq versions) hlargest
  obtain ⟨added, hadded⟩ : ∃ added, added = completeRecord given subject
    (.ofInt (versions.max?.getD 0 + 1 : Nat)) instant.isoText := ⟨_, rfl⟩
  have hrecord : IsAdded subject (versions.max?.getD 0 + 1) added :=
    ⟨given, instant.isoText, hgiven, hthreshold, hadded⟩
  obtain ⟨hplain, hreduced, haccepted⟩ :=
    hroom.accepts_added hlargest hrecord hvalid hversion
  obtain ⟨world', hsave, hrooted⟩ :=
    exists_save (afterReading world) hnames htree hledger hplain hreduced
  have hafter := ledgerIn_of_save hplain hreduced hsave
  rw [Schema.checkValue_of_accepts _ _ haccepted] at hafter
  have happends := appends_setRecords hroom.json hvalid.hasTables entry subject records
    (keptRecord added)
  refine ⟨versions, added, world', _, hversions, ?_, hadded, ?_, ?_, happends, ?_, hrooted⟩
  · exact (add_eq_ok_iff store).mpr
      ⟨ledger, records, _, instant, hledger, hroom.recordList_eq, hversion, hclock, hadded, hsave⟩
  · exact fun version hmem => Nat.lt_succ_of_le (hbound version hmem)
  · exact (load_eq_ok_iff store).mpr ⟨hafter, rfl⟩
  · rw [search_apply, hafter]
    exact congrArg (·, world')
      (hroom.search_latest hlargest hrecord hversions hbound happends.listed)

end

/-! ## A ledger edited by hand -/

/-- A record as it stands in a ledger. -/
def listedRecord (version : Nat) : Value :=
  .table [("domain_name", .text "d"), ("version", .number (.ofInt version)),
    ("file", .text "m.pkl"), ("created_at", .text "")]

/-- Records that stand in no order, with a gap in their versions and one version twice. -/
def unsortedRecords : List Value :=
  [listedRecord 3, listedRecord 1, listedRecord 3]

/-- A ledger with such records, and with a note that no part of a program looks at. -/
def unsortedLedger : Value :=
  .table [("note", .text ""), ("entries", .table [("models", .table [("d", .list unsortedRecords)]),
    ("data", .table []), ("candidates", .table [])])]

/-- The world in which a store has that ledger. -/
def unsortedWorld : World Devices :=
  { World.fresh with
    tree := (FileTree.empty.put ["store"] .directory).put ["store", "ams_store.json"]
      (.file (Utf8.encode (Json.print .indented unsortedLedger ++ "\n"))) }

/-- A tree with a ledger in the root of a store and nothing else. -/
theorem isRooted_withLedger (bytes : List UInt8) :
    ((FileTree.empty.put ["store"] .directory).put ["store", "ams_store.json"]
      (.file bytes)).IsRooted := by
  have hroot : (FileTree.empty.put ([] ++ ["store"]) .directory).IsRooted :=
    FileTree.isRooted_empty.put rfl (Or.inl rfl)
  have hfile : ((FileTree.empty.put ["store"] .directory).put (["store"] ++ ["ams_store.json"])
      (.file bytes)).IsRooted :=
    hroot.put (by decide) (Or.inr (by decide))
  exact hfile

theorem isRooted_unsortedWorld : unsortedWorld.tree.IsRooted :=
  isRooted_withLedger _

theorem isDocument_listedRecord {version : Nat} (h : version ≤ 2 ^ 53) :
    (listedRecord version).IsDocument := by
  have hversion : Value.IsDocument (.number (.ofInt version)) :=
    .number (by rw [Number.serial?_of_isFinite (Number.isFinite_ofInt h), Number.settled_ofInt h])
  refine .table ?_ ?_
  · change ["domain_name", "version", "file", "created_at"].Pairwise _
    decide
  · simp only [List.forall_mem_cons, List.not_mem_nil, false_implies, implies_true, and_true]
    exact ⟨.text _, hversion, .text _, .text _⟩

theorem isDocument_unsortedLedger : unsortedLedger.IsDocument := by
  have hrecords : ∀ record ∈ unsortedRecords, record.IsDocument := by
    simp only [unsortedRecords, List.forall_mem_cons, List.not_mem_nil, false_implies,
      implies_true, and_true]
    exact ⟨isDocument_listedRecord (by omega), isDocument_listedRecord (by omega),
      isDocument_listedRecord (by omega)⟩
  have hempty : Value.IsDocument (.table []) := .table (by decide) (by simp)
  have hmodels : Value.IsDocument (.table [("d", .list unsortedRecords)]) :=
    .table (by decide) (by simpa using Value.IsDocument.list hrecords)
  have hentries : Value.IsDocument (.table [("models", .table [("d", .list unsortedRecords)]),
      ("data", .table []), ("candidates", .table [])]) :=
    .table (by decide) (by simp [hmodels, hempty])
  exact .table (by decide) (by simpa using ⟨.text _, hentries⟩)

theorem ledgerIn_unsortedWorld :
    (⟨["store"]⟩ : LedgerStore).ledgerIn unsortedWorld.tree = .ok unsortedLedger := by
  have hread : unsortedWorld.tree.read (["store"] ++ ["ams_store.json"]) =
      .ok (Utf8.encode (Json.print .indented unsortedLedger ++ "\n")) := by
    refine FileTree.read_eq_ok_iff.mpr ⟨?_, rfl⟩
    exact isRooted_unsortedWorld.isDirectory (by decide)
  have hplain := isDocument_unsortedLedger.isPlain
  have hserial := isDocument_unsortedLedger.serial?_eq
  obtain ⟨text, htext, hof⟩ := ofText_fileText hplain hserial
    (⟨["store"]⟩ : LedgerStore).ledgerPath
  rw [fileText, Json.write_of_isPlain hplain, hserial] at htext
  have hsame : Json.print .indented unsortedLedger ++ "\n" = text := Except.ok.inj htext
  rw [ledgerIn, ledgerFile, hread]
  simp only [Utf8.decode_encode, hsame]
  apply hof.trans
  apply Schema.checkValue_of_accepts
  decide +kernel

theorem hasRoomFor_unsortedLedger :
    HasRoomFor unsortedLedger .models "d" unsortedRecords where
  json := isDocument_unsortedLedger.isJson
  found := Or.inl rfl
  accepted := by
    simp only [unsortedRecords, List.forall_mem_cons, List.not_mem_nil, false_implies,
      implies_true, and_true]
    decide +kernel
  small := by
    have hsmall : ∀ n ≤ 3, ∀ version, (listedRecord n).member "version" = .number version →
        version.less (.ofInt (2 ^ 53 : Nat)) = true := by
      intro n hn version hversion
      rw [← Value.number.inj hversion, Number.less_ofInt (by omega) (by omega)]
      exact decide_eq_true (by omega)
    simp only [unsortedRecords, List.forall_mem_cons, List.not_mem_nil, false_implies,
      implies_true, and_true]
    exact ⟨hsmall 3 (by omega), hsmall 1 (by omega), hsmall 3 (by omega)⟩

theorem add_appends_unsorted :
    (∀ name ∈ ["store"], FileTree.IsName name) ∧ unsortedWorld.tree.IsRooted ∧
    IsNewRecord [("file", .text "new.pkl")] ∧
    HasRoomFor unsortedLedger .models "d" unsortedRecords ∧
    ∃ versions added world' ledger', HasVersions unsortedRecords versions ∧
      (⟨["store"]⟩ : LedgerStore).add .models "d" [("file", .text "new.pkl")] unsortedWorld =
        (.ok added, world') ∧
      added = completeRecord [("file", .text "new.pkl")] "d"
        (.ofInt (versions.max?.getD 0 + 1 : Nat)) (Instant.isoText ⟨0, by decide⟩) ∧
      (∀ version ∈ versions, version < versions.max?.getD 0 + 1) ∧
      (⟨["store"]⟩ : LedgerStore).load world' = (.ok ledger', world') ∧
      Appends .models "d" unsortedRecords (keptRecord added) unsortedLedger ledger' ∧
      (⟨["store"]⟩ : LedgerStore).search "d" .models .latest world' =
        (.ok [.table (keptRecord added)], world') ∧
      world'.tree.IsRooted := by
  have hnames : ∀ name ∈ ["store"], FileTree.IsName name := by simp [FileTree.IsName]
  have hgiven : IsNewRecord [("file", .text "new.pkl")] :=
    ⟨by decide, ⟨"new.pkl", by simp⟩, by simpa using IsNewField.file "new.pkl"⟩
  refine ⟨hnames, isRooted_unsortedWorld, hgiven, hasRoomFor_unsortedLedger, ?_⟩
  refine (add_appends hnames isRooted_unsortedWorld hgiven).2 unsortedLedger unsortedRecords _
    ?_ hasRoomFor_unsortedLedger ?_ rfl
  · exact (load_eq_ok_iff _).mpr ⟨ledgerIn_unsortedWorld, rfl⟩
  · simp [HasFiniteThreshold]

end LedgerStore

end Dispatch
