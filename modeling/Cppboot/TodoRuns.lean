import Cppboot.TodoStore

/-!
# Runs of the to-do list

In every run of commands and restarts the list in memory and the file agree with the
ledger: a new process finds the entries that are kept, in their order and with their
identifiers and texts, whatever went wrong since. The file is never one that cannot be read.

As long as there are fewer commands that add than an identifier can count, identifiers
are positive and increase along the list. So an identifier names one item.
-/

namespace Cppboot.Todo

variable (toChars : Float → Bytes) (strtof : Bytes → Float)

/-- The entry as it is read at some time. -/
def Item.of (now : Timestamp) (entry : Entry) : Item := ⟨entry.1, entry.2, now⟩

/-! ## Reading back -/

/-- An item is loaded as its entry, with the time of loading. -/
theorem loadItem_object (now : Timestamp) {item : Item} (bounded : InInt item.id) :
    loadItem now (itemObject item).normal = .ok (.of now item.entry) := by
  have id : getInt (Json.normal (.number_integer item.id)) = .ok item.id := by
    rw [Json.normal]
    split
    · exact congrArg Except.ok (toInt_same bounded)
    next positive =>
      have same : (item.id.natAbs : Int) = item.id := by omega
      change Except.ok (toInt (item.id.natAbs : Int)) = _
      rw [same, toInt_same bounded]
  change (getInt (Json.normal (.number_integer item.id)) >>= _) = _
  rw [id]
  rfl

/-- Items are loaded as their entries, in order. -/
theorem loadItems_objects (now : Timestamp) {items : List Item}
    (bounded : ∀ item ∈ items, InInt item.id) :
    loadItems now (Json.normalItems (items.map itemObject)) =
      .ok (items.map fun item => .of now item.entry) := by
  induction items with
  | nil => rfl
  | cons item items inductionHypothesis =>
    have rest := inductionHypothesis fun other member =>
      bounded other (List.mem_cons_of_mem _ member)
    rw [List.map_cons, Json.normalItems, loadItems,
      loadItem_object now (bounded item List.mem_cons_self), rest]
    rfl

/-- The file keeps the entries: it is not there, or it was written from them. -/
def Stores (file : Option Bytes) (kept : List Entry) : Prop :=
  match file with
  | none => kept = []
  | some content => ∃ now items, items.map Item.entry = kept ∧
    JsonWriter.dump toChars .two 0 (rootObject now items) = .ok content

variable {toChars}

/-- A new process finds what is kept. -/
theorem Stores.loads {file : Option Bytes} {kept : List Entry} (stores : Stores toChars file kept)
    (bounded : ∀ entry ∈ kept, InInt entry.1) (now : Timestamp) :
    loadAllItems strtof now file = .ok (kept.map (.of now), idMax (kept.map Prod.fst)) := by
  cases file with
  | none =>
    obtain rfl : kept = [] := stores
    rfl
  | some content =>
    obtain ⟨time, items, rfl, done⟩ := stores
    have inside : ∀ item ∈ items, InInt item.id :=
      fun item member => bounded item.entry (List.mem_map_of_mem member)
    have read := JsonWriter.parse_dump strtof (root_storable time inside) done (Or.inl rfl)
    rw [List.append_nil] at read
    rw [loadAllItems, read]
    cases items with
    | nil => rfl
    | cons item items =>
      change (loadItems now (Json.normalItems ((item :: items).map itemObject)) >>= _) = _
      rw [loadItems_objects now inside, List.map_map, List.map_map]
      change Except.ok (_, idMax (List.map _ (List.map _ (item :: items)))) = _
      rw [List.map_map]
      rfl

/-- The list is written when its texts are UTF-8, and otherwise an exception is raised. -/
theorem saveAllItems_cases (toChars : Float → Bytes) (save : Save) (items : List Item)
    (file : Option Bytes) :
    (items.all (Utf8.valid ·.text) = true ∧ ∃ content,
      JsonWriter.dump toChars .two 0 (rootObject save.now items) = .ok content ∧
        saveAllItems toChars save items file = .ok (if save.opened then some content else file)) ∨
      (items.all (Utf8.valid ·.text) = false ∧ ∃ what,
        saveAllItems toChars save items file = .error what) := by
  have possible :=
    JsonWriter.dump_isOk toChars .two 0 (rootObject save.now items)
  rw [root_utf8] at possible
  rw [saveAllItems, rootJson_object]
  dsimp only [bind, Except.bind]
  cases done : JsonWriter.dump toChars .two 0 (rootObject save.now items) with
  | ok content =>
    rw [done] at possible
    exact Or.inl ⟨possible.symm, content, rfl, rfl⟩
  | error what =>
    rw [done] at possible
    exact Or.inr ⟨possible.symm, what, rfl⟩

/-! ## The world and the ledger -/

/-- The identifiers are numbers that an `int` holds. -/
def Bounded (entries : List Entry) : Prop := ∀ entry ∈ entries, InInt entry.1

variable (toChars)

/-- The world is what the ledger says. -/
structure Tied (world : World) (ledger : Ledger) : Prop where
  held : world.data.items_.map Item.entry = ledger.held
  next : world.data.next_id_ = ledger.next
  stores : Stores toChars world.file ledger.kept
  next_bounded : InInt ledger.next
  held_bounded : Bounded ledger.held
  kept_bounded : Bounded ledger.kept

variable {toChars}

/-- At first there is nothing, in memory and in the ledger. -/
theorem Tied.fresh (toChars : Float → Bytes) : Tied toChars .fresh .fresh where
  held := rfl
  next := rfl
  stores := rfl
  next_bounded := by
    change InInt 0
    unfold InInt
    omega
  held_bounded _ nothing := absurd nothing List.not_mem_nil
  kept_bounded _ nothing := absurd nothing List.not_mem_nil

/-- Writing a list is holding it. -/
theorem Tied.saved {world : World} {ledger : Ledger} (tied : Tied toChars world ledger)
    (data : Data) (save : Save) (next_bounded : InInt data.next_id_)
    (held_bounded : Bounded (data.items_.map Item.entry)) :
    Tied toChars (world.saved toChars data save).2
      (ledger.hold data.next_id_ (data.items_.map Item.entry) save.opened) := by
  have texts : (data.items_.map Item.entry).all (Utf8.valid ·.2) =
      data.items_.all (Utf8.valid ·.text) := List.all_map
  unfold World.saved Ledger.hold
  rw [texts]
  rcases saveAllItems_cases toChars save data.items_ world.file with
    ⟨possible, content, done, written⟩ | ⟨impossible, what, thrown⟩
  · rw [possible, written, Bool.and_true]
    cases save.opened with
    | true => exact ⟨rfl, rfl, ⟨save.now, data.items_, rfl, done⟩, next_bounded, held_bounded,
        held_bounded⟩
    | false => exact ⟨rfl, rfl, tied.stores, next_bounded, held_bounded, tied.kept_bounded⟩
  · rw [impossible, thrown, Bool.and_false]
    exact ⟨rfl, rfl, tied.stores, next_bounded, held_bounded, tied.kept_bounded⟩

/-- An identifier is looked for in the entries as in the items. -/
theorem any_entry (items : List Item) (id : Int) :
    (items.map Item.entry).any (·.1 = id) = items.any (·.id = id) := List.any_map

/-- Erasing an item erases its entry. -/
theorem eraseP_entry (items : List Item) (id : Int) :
    (items.eraseP (·.id = id)).map Item.entry = (items.map Item.entry).eraseP (·.1 = id) := by
  rw [List.eraseP_map]
  rfl

/-- Changing the text of an item replaces that of its entry. -/
theorem setText_entry (id : Int) (words : Bytes) (items : List Item) :
    (setText id words items).map Item.entry = Ledger.replace id words (items.map Item.entry) := by
  induction items with
  | nil => rfl
  | cons item items inductionHypothesis =>
    rw [setText, List.map_cons, Ledger.replace]
    change _ = if item.id = id then _ else _
    split
    · rfl
    · rw [List.map_cons, inductionHypothesis]

theorem replace_ids (id : Int) (words : Bytes) (entries : List Entry) :
    (Ledger.replace id words entries).map Prod.fst = entries.map Prod.fst := by
  induction entries with
  | nil => rfl
  | cons entry entries inductionHypothesis =>
    rw [Ledger.replace]
    split
    · rfl
    · rw [List.map_cons, inductionHypothesis, List.map_cons]

/-- A new item gets the identifier that the ledger gives. -/
theorem getNextID_take (data : Data) :
    data.getNextID = ((Ledger.take data.next_id_).1,
      { data with next_id_ := (Ledger.take data.next_id_).2 }) := by
  unfold Data.getNextID Ledger.take
  split
  · rfl
  · rfl

/-- What is given and what is left to give are numbers of 32 bits. -/
theorem take_inInt {next : Int} (bounded : InInt next) :
    InInt (Ledger.take next).1 ∧ InInt (Ledger.take next).2 := by
  unfold Ledger.take
  split
  · exact ⟨toInt_inInt _, toInt_inInt _⟩
  · exact ⟨bounded, toInt_inInt _⟩

/-- Every event happens in the world as in the ledger. -/
theorem Tied.step {world : World} {ledger : Ledger} (tied : Tied toChars world ledger)
    (event : Event) : ∃ after, world.step toChars strtof event = .ok after ∧
      Tied toChars after (ledger.step event) := by
  obtain ⟨held, next, stores, next_bounded, held_bounded, kept_bounded⟩ := tied
  have tied : Tied toChars world ledger :=
    ⟨held, next, stores, next_bounded, held_bounded, kept_bounded⟩
  cases event with
  | restart now =>
    have loaded := stores.loads strtof kept_bounded now
    refine ⟨⟨world.file, ⟨toInt (idMax (ledger.kept.map Prod.fst) + 1),
      ledger.kept.map (.of now)⟩⟩, ?_, ?_⟩
    · rw [World.step, World.restart, loaded]
      rfl
    · refine ⟨?_, rfl, stores, toInt_inInt _, kept_bounded, kept_bounded⟩
      change (ledger.kept.map (Item.of now)).map Item.entry = ledger.kept
      rw [List.map_map]
      exact List.map_id ledger.kept
  | add words save =>
    refine ⟨_, rfl, ?_⟩
    rw [World.add, Ledger.step]
    split
    · exact tied
    · obtain ⟨taken, behind⟩ := take_inInt next_bounded
      rw [getNextID_take, next]
      have added := tied.saved ⟨(Ledger.take ledger.next).2,
        world.data.items_ ++ [⟨(Ledger.take ledger.next).1, words, save.now⟩]⟩ save behind (by
          rw [List.map_append, held]
          intro entry member
          rcases List.mem_append.mp member with member | member
          · exact held_bounded entry member
          · rw [List.mem_singleton.mp member]
            exact taken)
      rw [List.map_append, held] at added
      exact added
  | delete id save =>
    refine ⟨_, rfl, ?_⟩
    rw [World.delete, Ledger.step, ← held, any_entry]
    split
    · have erased := tied.saved { world.data with
        items_ := world.data.items_.eraseP (·.id = id) } save (next ▸ next_bounded) (by
          rw [eraseP_entry, held]
          intro entry member
          exact held_bounded entry (List.mem_of_mem_eraseP member))
      rw [eraseP_entry, next] at erased
      exact erased
    · exact tied
  | update id words save =>
    refine ⟨_, rfl, ?_⟩
    rw [World.update, Ledger.step, ← held, any_entry]
    split
    · exact tied
    split
    · have updated := tied.saved { world.data with
        items_ := setText id words world.data.items_ } save (next ▸ next_bounded) (by
          rw [setText_entry, held]
          intro entry member
          have present : entry.1 ∈ (Ledger.replace id words ledger.held).map Prod.fst :=
            List.mem_map_of_mem member
          rw [replace_ids] at present
          obtain ⟨other, there, same⟩ := List.mem_map.mp present
          exact same ▸ held_bounded other there)
      rw [setText_entry, next] at updated
      exact updated
    · exact tied

/-- What is tied stays tied over a whole run, and no event of it fails. -/
theorem Tied.run {world : World} {ledger : Ledger} (tied : Tied toChars world ledger)
    (events : List Event) : ∃ after,
      events.foldlM (World.step toChars strtof) world = .ok after ∧
        Tied toChars after (events.foldl Ledger.step ledger) := by
  induction events generalizing world ledger with
  | nil => exact ⟨world, rfl, tied⟩
  | cons event events inductionHypothesis =>
    obtain ⟨middle, first, between⟩ := tied.step strtof event
    obtain ⟨after, rest, done⟩ := inductionHypothesis between
    refine ⟨after, ?_, done⟩
    rw [List.foldlM_cons, first]
    exact rest

/-- In every run the list in memory is the one that the ledger holds, and a new process finds
what is kept: the file can always be read. -/
theorem store_keeps (toChars : Float → Bytes) (strtof : Bytes → Float) (events : List Event) :
    ∃ world, World.run toChars strtof events = .ok world ∧
      world.data.items_.map Item.entry = (Ledger.run events).held ∧
      ∀ now, loadAllItems strtof now world.file =
        .ok ((Ledger.run events).kept.map (.of now),
          idMax ((Ledger.run events).kept.map Prod.fst)) := by
  obtain ⟨world, ran, tied⟩ := (Tied.fresh toChars).run strtof events
  exact ⟨world, ran, tied.held, fun now => tied.stores.loads strtof tied.kept_bounded now⟩

/-! ## Identifiers -/

/-- How many of the events add an item. -/
def adds (events : List Event) : Nat :=
  events.countP fun
    | .add _ _ => true
    | _ => false

/-- The identifiers of a list are positive, increase and are less than the next one. -/
def Increasing (next : Int) (entries : List Entry) : Prop :=
  (entries.map Prod.fst).Pairwise (· < ·) ∧ ∀ id ∈ entries.map Prod.fst, 0 < id ∧ id < next

/-- After so many commands that add. -/
structure Counted (count : Nat) (ledger : Ledger) : Prop where
  next_low : 0 ≤ ledger.next
  next_high : ledger.next ≤ count + 1
  held : Increasing ledger.next ledger.held
  kept : Increasing ledger.next ledger.kept

/-- Identifiers below the next one are below a later one. -/
theorem Increasing.weaken {next later : Int} {entries : List Entry}
    (increasing : Increasing next entries) (behind : next ≤ later) : Increasing later entries :=
  ⟨increasing.1, fun id member => ⟨(increasing.2 id member).1,
    Int.lt_of_lt_of_le (increasing.2 id member).2 behind⟩⟩

/-- Entries that are left increase as all of them do. -/
theorem Increasing.sublist {next : Int} {entries fewer : List Entry}
    (increasing : Increasing next entries)
    (sublist : (fewer.map Prod.fst).Sublist (entries.map Prod.fst)) : Increasing next fewer :=
  ⟨increasing.1.sublist sublist, fun id member => increasing.2 id (sublist.subset member)⟩

/-- An identifier that is not less than the next one comes last. -/
theorem Increasing.append {next later id : Int} {entries : List Entry}
    (increasing : Increasing next entries) (words : Bytes) (positive : 0 < id) (fresh : next ≤ id)
    (behind : id < later) : Increasing later (entries ++ [(id, words)]) := by
  unfold Increasing
  rw [List.map_append]
  constructor
  · refine List.pairwise_append.mpr ⟨increasing.1, List.pairwise_singleton _ _, ?_⟩
    intro before member last same
    rw [List.mem_singleton.mp same]
    have less := (increasing.2 before member).2
    change before < id
    omega
  · intro other member
    rcases List.mem_append.mp member with member | member
    · have inside := increasing.2 other member
      omega
    · rw [List.mem_singleton.mp member]
      exact ⟨positive, behind⟩

/-- The greatest identifier is one of them, or what the search began with. -/
theorem foldl_max (ids : List Int) (max : Int) :
    (max ≤ ids.foldl (fun max id => if max < id then id else max) max) ∧
      (∀ id ∈ ids, id ≤ ids.foldl (fun max id => if max < id then id else max) max) ∧
      (ids.foldl (fun max id => if max < id then id else max) max = max ∨
        ids.foldl (fun max id => if max < id then id else max) max ∈ ids) := by
  induction ids generalizing max with
  | nil => exact ⟨Int.le_refl max, fun _ nothing => absurd nothing List.not_mem_nil, Or.inl rfl⟩
  | cons id ids inductionHypothesis =>
    obtain ⟨low, all, found⟩ := inductionHypothesis (if max < id then id else max)
    rw [List.foldl_cons]
    generalize ids.foldl (fun max id => if max < id then id else max)
      (if max < id then id else max) = greatest at low all found ⊢
    have above : max ≤ greatest ∧ id ≤ greatest := by
      split at low
      · omega
      · omega
    refine ⟨above.1, List.forall_mem_cons.mpr ⟨above.2, all⟩, ?_⟩
    rcases found with same | found
    · split at same
      · exact Or.inr (same ▸ List.mem_cons_self)
      · exact Or.inl same
    · exact Or.inr (List.mem_cons_of_mem id found)

/-- The identifier behind the greatest one. -/
theorem Increasing.idMax {next : Int} {entries : List Entry}
    (increasing : Increasing next entries) :
    0 ≤ idMax (entries.map Prod.fst) ∧ (idMax (entries.map Prod.fst) < next ∨
      idMax (entries.map Prod.fst) = 0) ∧
      Increasing (Todo.idMax (entries.map Prod.fst) + 1) entries := by
  obtain ⟨low, all, found⟩ := foldl_max (entries.map Prod.fst) 0
  refine ⟨low, ?_, increasing.1, ?_⟩
  · rcases found with same | found
    · exact Or.inr same
    · exact Or.inl (increasing.2 _ found).2
  · intro id member
    exact ⟨(increasing.2 id member).1, Int.lt_add_one_of_le (all id member)⟩

/-- A list that is held instead is kept, or what was kept still is. -/
theorem Counted.hold {count later : Nat} {ledger : Ledger} (counted : Counted count ledger)
    {next : Int} {held : List Entry} (low : 0 ≤ next) (high : next ≤ later + 1)
    (behind : ledger.next ≤ next) (increasing : Increasing next held) (opened : Bool) :
    Counted later (ledger.hold next held opened) := by
  refine ⟨low, high, increasing, ?_⟩
  change Increasing next (if opened && held.all (Utf8.valid ·.2) then held else ledger.kept)
  split
  · exact increasing
  · exact counted.kept.weaken behind

/-- The events that add are counted one by one. -/
theorem adds_cons (event : Event) (events : List Event) :
    adds (event :: events) = adds [event] + adds events := by
  unfold adds
  rw [← List.countP_append]
  rfl

/-- One event keeps the identifiers increasing, as long as few enough were given. -/
theorem Counted.step {count : Nat} {ledger : Ledger} (counted : Counted count ledger)
    (event : Event) (few : (count + adds [event] : Nat) < 2 ^ 31 - 1) :
    Counted (count + adds [event]) (ledger.step event) := by
  obtain ⟨low, high, held, kept⟩ := counted
  have counted : Counted count ledger := ⟨low, high, held, kept⟩
  cases event with
  | restart now =>
    obtain ⟨positive, less, increasing⟩ := kept.idMax
    have same : toInt (idMax (ledger.kept.map Prod.fst) + 1) =
        idMax (ledger.kept.map Prod.fst) + 1 := by
      apply toInt_same
      unfold InInt
      omega
    have next : (ledger.step (.restart now)).next = idMax (ledger.kept.map Prod.fst) + 1 := same
    refine ⟨?_, ?_, ?_, ?_⟩
    · rw [next]
      omega
    · rw [next]
      omega
    · rw [next]
      exact increasing
    · rw [next]
      exact increasing
  | add words save =>
    have one : adds [.add words save] = 1 := rfl
    rw [one] at few ⊢
    rw [Ledger.step]
    split
    · exact ⟨low, by omega, held, kept⟩
    · have taken : 0 < (Ledger.take ledger.next).1 ∧ ledger.next ≤ (Ledger.take ledger.next).1 ∧
          (Ledger.take ledger.next).2 = (Ledger.take ledger.next).1 + 1 ∧
          (Ledger.take ledger.next).2 ≤ (count + 1 : Nat) + 1 := by
        unfold Ledger.take toInt
        split
        · dsimp only
          omega
        · dsimp only
          omega
      obtain ⟨positive, fresh, behind, bounded⟩ := taken
      exact counted.hold (by omega) bounded (by omega)
        (held.append words positive fresh (by omega)) save.opened
  | delete id save =>
    rw [Ledger.step]
    split
    · exact counted.hold low (by omega) (Int.le_refl _)
        (held.sublist (List.eraseP_sublist.map Prod.fst)) save.opened
    · exact ⟨low, by omega, held, kept⟩
  | update id words save =>
    rw [Ledger.step]
    split
    · exact ⟨low, by omega, held, kept⟩
    split
    · have same : Increasing ledger.next (Ledger.replace id words ledger.held) :=
        held.sublist (replace_ids id words ledger.held ▸ List.Sublist.refl _)
      exact counted.hold low (by omega) (Int.le_refl _) same save.opened
    · exact ⟨low, by omega, held, kept⟩

/-- So does a run. -/
theorem Counted.run {count : Nat} {ledger : Ledger} (counted : Counted count ledger)
    (events : List Event) (few : (count + adds events : Nat) < 2 ^ 31 - 1) :
    Counted (count + adds events) (events.foldl Ledger.step ledger) := by
  induction events generalizing count ledger with
  | nil => exact counted
  | cons event events inductionHypothesis =>
    rw [adds_cons] at few ⊢
    rw [← Nat.add_assoc] at few ⊢
    exact inductionHypothesis (counted.step event (by omega)) few

theorem Counted.fresh : Counted 0 .fresh where
  next_low := Int.le_refl 0
  next_high := by decide
  held := ⟨.nil, fun _ nothing => absurd nothing List.not_mem_nil⟩
  kept := ⟨.nil, fun _ nothing => absurd nothing List.not_mem_nil⟩

/-- In every run in which fewer items are added than an identifier can count, the identifiers
of the list are positive and increase along it. -/
theorem identifiers_increase (toChars : Float → Bytes) (strtof : Bytes → Float)
    {events : List Event} (few : adds events < 2 ^ 31 - 1) :
    ∃ world, World.run toChars strtof events = .ok world ∧
      (world.data.items_.map Item.id).Pairwise (· < ·) ∧
        ∀ item ∈ world.data.items_, 0 < item.id := by
  obtain ⟨world, ran, tied⟩ := (Tied.fresh toChars).run strtof events
  have counted := Counted.fresh.run events (by rwa [Nat.zero_add])
  obtain ⟨increasing, positive⟩ := counted.held
  have ids : world.data.items_.map Item.id = (Ledger.run events).held.map Prod.fst := by
    change _ = (events.foldl Ledger.step Ledger.fresh).held.map Prod.fst
    rw [← tied.held, List.map_map]
    rfl
  refine ⟨world, ran, ?_, ?_⟩
  · rw [ids]
    exact increasing
  · intro item member
    have present : item.id ∈ (Ledger.run events).held.map Prod.fst :=
      ids ▸ List.mem_map_of_mem member
    exact (positive item.id present).1

/-- A text that is not UTF-8 is held, but not kept, and its identifier is given again. -/
def interrupted : List Event :=
  [.add (text "one") ⟨⟨0⟩, true⟩, .add [0xFF] ⟨⟨0⟩, true⟩, .restart ⟨0⟩,
    .add (text "two") ⟨⟨0⟩, true⟩]

/-- A run with a new process and with a write that fails. -/
theorem interrupted_increases :
    ∃ world, World.run (fun _ => []) (fun _ => 0) interrupted = .ok world ∧
      (world.data.items_.map Item.id).Pairwise (· < ·) ∧
        ∀ item ∈ world.data.items_, 0 < item.id :=
  identifiers_increase (fun _ => []) (fun _ => 0) (by decide)

end Cppboot.Todo
