import Chino.Ob.Namespace
import Chino.Ob.Partial

/-!
# Attaching devices

`attach_device` puts a device into `/dev` under its own name, and makes it the default device of its
kind if it is a special one.  For a BLE device it then starts the watch, which may fail.

With assertions the default device has to be missing before; without them it is replaced.

## What is here

* `attachDevice` is `attach_device` over the name space of `Chino.Ob.Namespace`, in both builds:
  `asserts` says whether `kassert` looks at its condition, and then there is no result if it fails.
* `AllOrNothing` is what a caller expects of it.  An error leaves every directory and the three
  default devices as they were.  After a success the device is found under its name in `/dev`, and
  is the default device of its kind if it is of a special one.
* `resolve_inserted_iff` is about the name.  `attach_device` builds the path itself, so a name with
  a separator in it goes further down, or nowhere at all.
* `attachDevice_allOrNothing_iff` is the exact condition.  What goes wrong is the watch of a BLE
  device: it is started after the device was inserted and made the default, and where it fails
  neither is taken back (`attached_partly`).

A device that is still in another directory is left out, because a `list_node` is in one list at a
time and the insertion would move it.
-/

set_option autoImplicit false

namespace Chino

open Function (update)

/-- `object_kind_stdio_device`, `object_kind_socket_device` and `object_kind_ble_device` -/
inductive SpecialKind where
  | stdio
  | socket
  | ble
deriving DecidableEq

/-- The named objects, with `dev_directory_` and the kinds of the devices. -/
structure DeviceObjects (α : Type) extends NamedObjects α where
  devDirectory : α
  name_devDirectory : name devDirectory = [100, 101, 118]
  isDirectory_devDirectory : isDirectory devDirectory = true
  kind : α → Option SpecialKind

/-- The name space and the three default devices. -/
structure DeviceManager (α : Type) where
  names : Directories α
  default : SpecialKind → Option α

namespace DeviceManager

variable {α : Type} [DecidableEq α] (N : DeviceObjects α) (asserts : Bool)
  (startWatch : Except ErrorCode Unit)

/-! ## The code -/

omit [DecidableEq α] in
/-- `kassert(default_device_.empty()); default_device_ = device` -/
def setDefault (s : DeviceManager α) (k : SpecialKind) (device : α) : Option (DeviceManager α) :=
  if asserts ∧ (s.default k).isSome then none
  else some { s with default := update s.default k (some device) }

omit [DecidableEq α] in
/-- `initialize_socket_manager` -/
def initializeSocketManager (s : DeviceManager α) (device : α) :
    Option (Except ErrorCode Unit × DeviceManager α) := do
  let s ← s.setDefault asserts .socket device
  some (.ok (), s)

omit [DecidableEq α] in
/-- `initialize_ble_manager`; `startWatch` is what `start_watch_advertisement` returns. -/
def initializeBleManager (s : DeviceManager α) (device : α) :
    Option (Except ErrorCode Unit × DeviceManager α) := do
  let s ← s.setDefault asserts .ble device
  some (startWatch, s)

/-- `io::attach_device` -/
def attachDevice (s : DeviceManager α) (device : α) :
    Option (Except ErrorCode Unit × DeviceManager α) := do
  let (r, names) ← s.names.insert N.toNamedObjects N.devDirectory device (N.name device)
  let s := { s with names := names }
  match r with
  | .error e => some (.error e, s)
  | .ok () =>
    -- Handle special device
    match N.kind device with
    | none => some (.ok (), s)
    | some .stdio => do
      let s ← s.setDefault asserts .stdio device
      some (.ok (), s)
    | some .socket => s.initializeSocketManager asserts device
    | some .ble => s.initializeBleManager asserts startWatch device

/-! ## All or nothing -/

/-- `/dev` -/
def devPath : Text := pathOf [[100, 101, 118]]

/-- An error leaves every directory and every default device as it was; otherwise the device is
found under its name in `/dev`, and is the default device of its kind. -/
structure AllOrNothing (s : DeviceManager α) (device : α) (r : Except ErrorCode Unit)
    (s' : DeviceManager α) : Prop where
  error : ∀ e, r = .error e → s'.names.listing = s.names.listing ∧ s'.default = s.default
  ok : r = .ok () → s'.names.resolve N.toNamedObjects
      (devPath ++ directorySeparator :: N.name device) = some (.ok device) ∧
    ∀ k, N.kind device = some k → s'.default k = some device

/-- Nothing is at the path yet, and its components before the last lead through directories. -/
def Vacant (N : NamedObjects α) (s : Directories α) (self : α) (p : Text) : Prop :=
  ∃ d c, locate (entryOf N s.listing) N.isDirectory self (split p) = .entry d c ∧
    entryOf N s.listing d c = none

end DeviceManager

namespace Directories

variable {α : Type} [DecidableEq α] {N : NamedObjects α} {s : Directories α} {L : α → List α}
  {self a d : α} {c p : Text}

theorem Inv.listing (hI : Inv N s L) : s.listing = L := funext hI.listing_eq

theorem Inv.insert_of_not_vacant (hI : Inv N s L) (a : α)
    (h : ¬ DeviceManager.Vacant N s self p) : ∃ e, s.insert N self a p = some (.error e, s) := by
  refine hI.insert_of_occupied a fun d c hloc he ↦ h ⟨d, c, ?_, ?_⟩
  · rwa [hI.listing]
  · rwa [hI.listing]

/-- An insertion where nothing is puts the object into some directory. -/
theorem Inv.insert_of_vacant (hI : Inv N s L) (ha : ∀ d, a ∉ L d)
    (h : DeviceManager.Vacant N s self p) : ∃ d s', s.insert N self a p = some (.ok (), s') ∧
      a ∈ s'.listing d := by
  obtain ⟨d, c, hloc, he⟩ := h
  rw [hI.listing] at hloc he
  obtain ⟨xs, ys, items, hL, -, -, hinsert, hspells⟩ := hI.noRemaining_spells ha he
  refine ⟨d, ⟨items, update s.refs a (s.refs a + 1), s.inserted + 1⟩, ?_, ?_⟩
  · rw [hI.insert_eq, hloc, settle, hinsert]
    rfl
  · have hlen : (update L d (xs ++ a :: ys) d).length ≤ s.inserted + 1 := by
      have := hI.bound d
      rw [hL, List.length_append] at this
      rw [Function.update_self, List.length_append, List.length_cons]
      omega
    rw [Directories.listing, hspells.front_eq, hspells.walk_eq (List.nil_append _).symm hlen,
      Function.update_self]
    simp

/-- A device whose name is a component goes into `/dev` itself. -/
theorem Inv.insert_component (hI : Inv N s L) (ha : ∀ d, a ∉ L d) (hd : N.isDirectory d = true)
    (hc : directorySeparator ∉ N.name a) (h : DeviceManager.Vacant N s d (N.name a)) :
    ∃ xs ys s', L d = xs ++ ys ∧ s.insert N d a (N.name a) = some (.ok (), s') ∧
      Inv N s' (update L d (xs ++ a :: ys)) ∧ entryOf N L d (N.name a) = none := by
  obtain ⟨d', c, hloc, he⟩ := h
  rw [hI.listing, split_of_not_mem hc] at hloc
  rw [hI.listing] at he
  have hne : N.name a ≠ [] := fun h ↦ by
    rw [h, locate, if_pos rfl] at hloc
    cases hloc
  rw [locate_last hne (Or.inl rfl)] at hloc
  cases hloc
  obtain ⟨xs, ys, s', hL, hs', hI'⟩ := hI.noRemaining_insert ha ⟨hne, hc⟩ hd he
  refine ⟨xs, ys, s', hL, ?_, hI', he⟩
  rw [hI.insert_eq, split_of_not_mem hc, locate_last hne (Or.inl rfl), settle, hs']
  rfl

end Directories

namespace DeviceManager

open Directories (Inv exists_inv)

variable {α : Type} [DecidableEq α] {N : DeviceObjects α} {asserts : Bool}
  {startWatch : Except ErrorCode Unit} {s s' : DeviceManager α} {L : α → List α} {device : α}
  {r : Except ErrorCode Unit}

omit [DecidableEq α] in
theorem component_dev : Component ([100, 101, 118] : Text) := by decide

/-- **A device that was inserted is found under its name**, if and only if this has no separator and
`/dev` is where it should be. -/
theorem resolve_inserted_iff {names : Directories α} (hI : Inv N.toNamedObjects s.names L)
    (ha : ∀ d, device ∉ L d)
    (hv : Vacant N.toNamedObjects s.names N.devDirectory (N.name device))
    (hins : s.names.insert N.toNamedObjects N.devDirectory device (N.name device) =
      some (.ok (), names)) :
    names.resolve N.toNamedObjects (devPath ++ directorySeparator :: N.name device) =
        some (.ok device) ↔
      directorySeparator ∉ N.name device ∧
        s.names.resolve N.toNamedObjects devPath = some (.ok N.devDirectory) := by
  have hpath : devPath ++ directorySeparator :: N.name device =
      pathOf [[100, 101, 118], N.name device] := by simp [devPath]
  by_cases hc : directorySeparator ∉ N.name device
  · obtain ⟨xs, ys, t, hL, ht, hI', he⟩ :=
      hI.insert_component ha N.isDirectory_devDirectory hc hv
    cases hins.symm.trans ht
    obtain ⟨hself, hother⟩ := hI.entryOf_insert hL hI'
    have hroot : N.rootDirectory ≠ N.devDirectory := fun h ↦ by
      have hname := N.name_devDirectory
      rw [← h, N.name_rootDirectory] at hname
      cases hname
    have hedge : entryOf N.toNamedObjects (update L N.devDirectory (xs ++ device :: ys))
        N.rootDirectory [100, 101, 118] =
          entryOf N.toNamedObjects L N.rootDirectory [100, 101, 118] :=
      hother _ _ fun h ↦ hroot h.1
    have hname : Component (N.name device) := hI'.component N.devDirectory device (by simp)
    have hcs : ∀ c ∈ [[100, 101, 118], N.name device], Component c := by
      simp [component_dev, hname]
    rw [hpath, hI'.resolve_pathOf_eq_ok_iff hcs (by simp), and_iff_right hc, devPath,
      hI.resolve_pathOf_eq_ok_iff (by simp [component_dev]) (by simp)]
    simp only [follow, hedge, Option.bind_fun_some]
    constructor
    · intro h
      obtain ⟨d, hd, hdev⟩ := Option.bind_eq_some_iff.mp h
      -- the device is in `/dev` and in no other directory
      obtain ⟨hmem, -⟩ := hI'.entryOf_eq_some_iff.mp hdev
      rwa [hI'.spells.disjoint d N.devDirectory device hmem (by simp)] at hd
    · intro h
      rw [h, Option.bind_some, hself]
  · refine iff_of_false (fun h ↦ hc ?_) fun h ↦ hc h.1
    rw [hpath, pathOf_cons, Directories.resolve, Directories.lookupObject, if_neg (by simp),
      Directories.lookup, List.tail_cons, Option.map_map] at h
    obtain ⟨⟨x, t⟩, hx, h⟩ := Option.map_eq_some_iff.mp h
    cases x with
    | error e => cases h
    | ok x =>
      obtain ⟨o, rest⟩ := x
      dsimp only [Function.comp] at h
      split at h
      · cases h
        subst rest
        exact Directories.not_mem_name (Nat.lt_succ_self _) (by simp) hx
      · cases h

omit [DecidableEq α] in
theorem setDefault_eq_some {k : SpecialKind} (h : s.setDefault asserts k device = some s') :
    s'.names = s.names ∧ s'.default k = some device := by
  rw [setDefault] at h
  split at h
  · cases h
  · cases h
    exact ⟨rfl, Function.update_self ..⟩

/-- How attaching goes on after the insertion: well, or the watch does not start. -/
theorem attachDevice_cases {names : Directories α}
    (hins : s.names.insert N.toNamedObjects N.devDirectory device (N.name device) =
      some (.ok (), names))
    (hr : s.attachDevice N asserts startWatch device = some (r, s')) :
    s'.names = names ∧
      (r = .ok () ∧ (N.kind device = some .ble → startWatch = .ok ()) ∧
          (∀ k, N.kind device = some k → s'.default k = some device) ∨
        N.kind device = some .ble ∧ startWatch = r ∧ ∃ e, r = .error e) := by
  rw [attachDevice, hins, Option.bind_eq_bind, Option.bind_some] at hr
  dsimp only at hr
  split at hr
  · rename_i hk
    cases hr
    exact ⟨rfl, Or.inl ⟨rfl, by simp [hk], by simp [hk]⟩⟩
  · rename_i hk
    obtain ⟨t, ht, hr⟩ := Option.bind_eq_some_iff.mp hr
    cases hr
    obtain ⟨hn, hd⟩ := setDefault_eq_some ht
    exact ⟨hn, Or.inl ⟨rfl, by simp [hk], by simpa [hk] using hd⟩⟩
  · rename_i hk
    obtain ⟨t, ht, hr⟩ := Option.bind_eq_some_iff.mp hr
    cases hr
    obtain ⟨hn, hd⟩ := setDefault_eq_some ht
    exact ⟨hn, Or.inl ⟨rfl, by simp [hk], by simpa [hk] using hd⟩⟩
  · rename_i hk
    obtain ⟨t, ht, hr⟩ := Option.bind_eq_some_iff.mp hr
    cases hr
    obtain ⟨hn, hd⟩ := setDefault_eq_some ht
    refine ⟨hn, ?_⟩
    cases startWatch with
    | ok _ => exact Or.inl ⟨rfl, fun _ ↦ rfl, by simpa [hk] using hd⟩
    | error e => exact Or.inr ⟨hk, rfl, e, rfl⟩

/-- **Attaching is all or nothing**, where the device is not yet in a directory other than `/dev`:
if and only if the place for it is taken, or a BLE device starts its watch, the name has no
separator and `/dev` is in the root. -/
theorem attachDevice_allOrNothing_iff
    (h : (Directories.machine N.toNamedObjects).ReachableWhile
      (Directories.Proper N.toNamedObjects) s.names)
    (hdevice : s.names.items.inList device = false ∨ device ∈ s.names.listing N.devDirectory)
    (hr : s.attachDevice N asserts startWatch device = some (r, s')) :
    AllOrNothing N s device r s' ↔
      (Vacant N.toNamedObjects s.names N.devDirectory (N.name device) →
        (N.kind device = some .ble → startWatch = .ok ()) ∧
        directorySeparator ∉ N.name device ∧
        s.names.resolve N.toNamedObjects devPath = some (.ok N.devDirectory)) := by
  obtain ⟨L, hI⟩ := exists_inv h
  by_cases hv : Vacant N.toNamedObjects s.names N.devDirectory (N.name device)
  · have ha : ∀ d, device ∉ L d := by
      rcases hdevice with hdevice | hdevice
      · exact hI.not_mem hdevice
      · -- its name is taken by itself
        obtain ⟨d, c, hloc, he⟩ := hv
        rw [hI.listing] at hdevice hloc he
        obtain ⟨hne, hsep⟩ := hI.component _ _ hdevice
        rw [split_of_not_mem hsep, locate_last hne (Or.inl rfl)] at hloc
        cases hloc
        rw [hI.entryOf_eq_some_iff.mpr ⟨hdevice, rfl⟩] at he
        cases he
    obtain ⟨d, names, hins, hmem⟩ := hI.insert_of_vacant ha hv
    obtain ⟨hnames, ⟨rfl, hble, hdefault⟩ | ⟨hk, hwatch, e, rfl⟩⟩ := attachDevice_cases hins hr
    · have hfound := resolve_inserted_iff hI ha hv hins
      rw [← hnames] at hfound
      constructor
      · exact fun hall _ ↦ ⟨hble, hfound.mp (hall.ok rfl).1⟩
      · exact fun hcond ↦ ⟨(fun e he ↦ by cases he), fun _ ↦ ⟨hfound.mpr (hcond hv).2, hdefault⟩⟩
    · refine iff_of_false (fun hall ↦ ?_) fun hcond ↦ ?_
      · rw [← hnames, (hall.error e rfl).1, hI.listing] at hmem
        exact ha d hmem
      · rw [(hcond hv).1 hk] at hwatch
        cases hwatch
  · obtain ⟨e, he⟩ := hI.insert_of_not_vacant device hv
    rw [attachDevice, he] at hr
    cases hr
    exact iff_of_true ⟨fun _ _ ↦ ⟨rfl, rfl⟩, fun h ↦ by cases h⟩ fun h ↦ absurd h hv

/-! ## A watch that does not start -/

/-- A root, `/dev` and a BLE device. -/
def bleObjects : DeviceObjects ℕ where
  name a := if a = 0 then [] else if a = 1 then [100, 101, 118] else [98, 108, 101]
  isDirectory a := decide (a ≠ 2)
  rootDirectory := 0
  name_rootDirectory := rfl
  isDirectory_rootDirectory := rfl
  devDirectory := 1
  name_devDirectory := rfl
  isDirectory_devDirectory := rfl
  kind a := if a = 2 then some .ble else none

/-- `/dev` was inserted. -/
def bleManager : DeviceManager ℕ where
  names := (Directories.machine bleObjects.toNamedObjects).afterWhile
    (Directories.Proper bleObjects.toNamedObjects) [.insertObject 1 devPath]
  default _ := none

/-- The default BLE device after an attempt. -/
def attached (startWatch : Except ErrorCode Unit) :
    Option (Except ErrorCode Unit × DeviceManager ℕ) :=
  bleManager.attachDevice bleObjects true startWatch 2

/-- A BLE device that starts its watch is attached. -/
theorem attached_allOrNothing : ∃ r s', attached (.ok ()) = some (r, s') ∧
    AllOrNothing bleObjects bleManager 2 r s' := by
  obtain ⟨⟨r, s'⟩, h⟩ := Option.isSome_iff_exists.mp
    (by decide +kernel : (attached (.ok ())).isSome = true)
  refine ⟨r, s', h, ?_⟩
  have hreach : (Directories.machine bleObjects.toNamedObjects).ReachableWhile
      (Directories.Proper bleObjects.toNamedObjects) bleManager.names :=
    Machine.reachableWhile_afterWhile (M := Directories.machine bleObjects.toNamedObjects)
      (c := Directories.Proper bleObjects.toNamedObjects) [.insertObject 1 devPath]
  exact (attachDevice_allOrNothing_iff hreach (Or.inl (by decide +kernel)) h).mpr
    fun _ ↦ ⟨fun _ ↦ rfl, by decide, by decide +kernel⟩

/-- One that does not stays in `/dev`, and stays the default. -/
theorem attached_partly : ∃ s', attached (.error .notSupported) = some (.error .notSupported, s') ∧
    s'.names.listing 1 = [2] ∧ s'.default .ble = some 2 ∧
    ¬ AllOrNothing bleObjects bleManager 2 (.error .notSupported) s' := by
  have key : ∀ o : Option (Except ErrorCode Unit × DeviceManager ℕ),
      (o.any fun x ↦ decide (x.1 = .error .notSupported) && decide (x.2.names.listing 1 = [2]) &&
        decide (x.2.default .ble = some 2)) = true →
      ∃ s', o = some (.error .notSupported, s') ∧ s'.names.listing 1 = [2] ∧
        s'.default .ble = some 2 := by
    rintro (_ | ⟨r, s'⟩) h
    · cases h
    · simp only [Option.any_some, Bool.and_eq_true, decide_eq_true_eq] at h
      obtain ⟨⟨rfl, hl⟩, hd⟩ := h
      exact ⟨s', rfl, hl, hd⟩
  obtain ⟨s', hs', hl, hd⟩ := key (attached (.error .notSupported)) (by decide +kernel)
  refine ⟨s', hs', hl, hd, fun hall ↦ ?_⟩
  rw [(hall.error _ rfl).2] at hd
  cases hd

end DeviceManager

end Chino
