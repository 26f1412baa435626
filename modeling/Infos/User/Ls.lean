import Infos.User.Library

/-!
# The program ls

It prints the names in a directory and their sizes, `/usr` where no directory is given.
-/
namespace Infos.User.Ls
open Infos.Lib Infos.Util Infos.Kernel Infos.Kernel.FileCalls Infos.Fs.Namespace Function
open Infos.Fs (Memory NodeId)
open Infos.Util.Printf (CString Item emit items)

/-- The text `Unable to open directory '%s' for reading.`, with a newline. -/
def errorFormat : List UInt8 :=
  [85, 110, 97, 98, 108, 101, 32, 116, 111, 32, 111, 112, 101, 110, 32, 100, 105, 114, 101, 99,
    116, 111, 114, 121, 32, 39, 37, 115, 39, 32, 102, 111, 114, 32, 114, 101, 97, 100, 105, 110,
    103, 46, 10]

/-- The text `Directory Listing of '%s':`, with a newline. -/
def headFormat : List UInt8 :=
  [68, 105, 114, 101, 99, 116, 111, 114, 121, 32, 76, 105, 115, 116, 105, 110, 103, 32, 111, 102,
    32, 39, 37, 115, 39, 58, 10]

/-- The text `  %s (%u bytes)`, with a newline. -/
def lineFormat : List UInt8 :=
  [32, 32, 37, 115, 32, 40, 37, 117, 32, 98, 121, 116, 101, 115, 41, 10]

/-- The path `/usr` -/
def usrPath : CString := ⟨47 :: usrName, by decide⟩

def listLoop (console dir : Nat) : Nat → UserProgram Unit
  | 0 => .fault .outOfFuel
  | fuel + 1 => do
      match ← readdir dir with
      | none => pure ()
      | some (name, size) => do
          let _ ← printf console lineFormat [.str (cString name), .word (UInt32.ofNat size)]
          listLoop console dir fuel

/-- The directory that is listed. -/
def pathOf (cmdline : CString) : CString := if cmdline.text = [] then usrPath else cmdline

def main (fuel console : Nat) (cmdline : CString) : UserProgram Int := do
  let dir ← opendir (pathOf cmdline).text
  if isError dir then do
    let _ ← printf console errorFormat [.str (pathOf cmdline)]
    pure 1
  else do
    let _ ← printf console headFormat [.str (pathOf cmdline)]
    listLoop console dir fuel
    let _ ← closedir dir
    pure 0

/-! ### What is printed -/

/-- The heading of a list, cut off where the array of `printf` ends. -/
def heading (path : List UInt8) : List UInt8 :=
  (headFormat.take 22 ++ path ++ headFormat.drop 24).take 0xffe

/-- The line for an entry: its name up to 62 characters, and its size. -/
def line (e : DirectoryEntry) : List UInt8 :=
  emit 0xffe ([32, 32].map .char ++ .str ((e.name.takeWhile (· ≠ 0)).take 62) 0 32 ::
    ([32, 40].map .char ++ .num (Printf.number (UInt32.ofNat e.size).toUInt64 10 false 0 32) ::
      [32, 98, 121, 116, 101, 115, 41, 10].map .char))

theorem heading_items (path : CString) : ∃ its,
    items headFormat [.str path] = some its ∧ emit 0xffe its = heading path.text := by
  refine ⟨(headFormat.take 22).map .char ++ .str path.text 0 32 ::
    (headFormat.drop 24).map .char, rfl, ?_⟩
  exact Printf.emit_around _ _ _ 32 0xffe

theorem line_items (e : DirectoryEntry) : ∃ its,
    items lineFormat [.str (cString ((e.name.takeWhile (· ≠ 0)).take 62)),
      .word (UInt32.ofNat e.size)] = some its ∧ emit 0xffe its = line e := by
  have clean : (cString ((e.name.takeWhile (· ≠ 0)).take 62)).text =
      (e.name.takeWhile (· ≠ 0)).take 62 :=
    cString_proper fun mem => notMem_takeWhile 0 e.name (List.mem_of_mem_take mem)
  refine ⟨[32, 32].map .char ++ .str (cString ((e.name.takeWhile (· ≠ 0)).take 62)).text 0 32 ::
    ([32, 40].map .char ++ .num (Printf.number (UInt32.ofNat e.size).toUInt64 10 false 0 32) ::
      [32, 98, 121, 116, 101, 115, 41, 10].map .char), rfl, ?_⟩
  rw [clean, line]

section Runs
variable {π : Type} [DecidableEq π] {p : Place π} {left console dir : Nat}
  {held : List (Nat × Object)} {out : List (DeviceId × List UInt8)} {d : DeviceId}

theorem listLoop_prints (mem : (console, .terminalFile d) ∈ held) (shown : p.hw.console d = true)
    (fuel : Nat) {directory : Directory}
    (enough : directory.entries.length - directory.currentEntry < fuel) :
    p.Meets (Running p left ((dir, .directory directory) :: held) out) (listLoop console dir fuel)
      fun _ ops w => ∃ last, Running p left ((dir, .directory last) :: held)
        (out ++ (directory.entries.drop directory.currentEntry).map fun e => (d, line e))
        ops w := by
  induction fuel generalizing directory out with
  | zero => exact absurd enough (Nat.not_lt_zero _)
  | succ fuel ih =>
      rw [listLoop]
      cases next : directory.entries[directory.currentEntry]? with
      | none =>
          refine .bind (readdir_none next) fun r => .of_fact ?_
          rintro rfl
          have behind := List.getElem?_eq_none_iff.mp next
          rw [List.drop_eq_nil_of_le behind, List.map_nil, List.append_nil]
          exact .ret _ fun ops w run => ⟨_, run⟩
      | some e =>
          refine .bind (readdir_some next) fun r => .of_fact ?_
          rintro rfl
          obtain ⟨its, found, printed⟩ := line_items e
          have clean : 0 ∉ lineFormat := by decide
          obtain ⟨inside, value⟩ := List.getElem?_eq_some_iff.mp next
          rw [List.drop_eq_getElem_cons inside, value, List.map_cons, List.append_cons out,
            ← printed]
          dsimp only
          -- with the format spelled out Lean would print it
          generalize lineFormat = fmt at found clean ⊢
          refine .bind (printf_terminal (List.mem_cons_of_mem _ mem) shown clean found) fun _ => ?_
          exact ih (by dsimp only; omega)

theorem main_lists {cmdline : CString} {rest : List UInt8} {fuel : Nat} {directory : Directory}
    (text : (pathOf cmdline).text = 47 :: rest) (short : ∀ c ∈ leading 47 rest, c.length < 256)
    (found : p.directory rest = some directory) (start : directory.currentEntry = 0)
    (mem : (console, .terminalFile d) ∈ held) (shown : p.hw.console d = true)
    (enough : directory.entries.length < fuel) :
    p.Meets (Running p (left + 1) held out) (main fuel console cmdline) fun r ops w =>
      r = 0 ∧ ∃ held', (console, .terminalFile d) ∈ held' ∧
        Running p left held' (out ++ (d, heading (pathOf cmdline).text) ::
          directory.entries.map fun e => (d, line e)) ops w := by
  have proper : 0 ∉ rest := fun mem => (pathOf cmdline).proper (text ▸ List.mem_cons_of_mem 47 mem)
  have clean : 0 ∉ headFormat := by decide
  obtain ⟨its, headed, printed⟩ := heading_items (pathOf cmdline)
  have whole : directory.entries.drop directory.currentEntry = directory.entries := by
    rw [start]
    rfl
  rw [← printed, main, text]
  -- with the format spelled out Lean would print it
  generalize headFormat = fmt at headed clean ⊢
  refine .bind (opendir_some found proper short) fun dir => .of_fact fun fine => ?_
  rw [fine]
  refine .bind (printf_terminal (List.mem_cons_of_mem _ mem) shown clean headed) fun _ => ?_
  have listed : p.Meets (Running p left ((dir, .directory directory) :: held)
      (out ++ [(d, emit 0xffe its)])) (listLoop console dir fuel) _ :=
    listLoop_prints mem shown fuel (Nat.lt_of_le_of_lt (Nat.sub_le _ _) enough)
  rw [whole, ← List.append_cons] at listed
  refine .bind listed fun _ => .of_exists fun directory' => ?_
  refine .bind closedir_directory fun _ => .of_exists fun last => ?_
  exact .ret _ fun ops w run => ⟨rfl, _, List.mem_cons_of_mem _ mem, run⟩

end Runs

/-! ### Directories of an archive -/

/-- The entries are the names below a path of the archive, each once, with their sizes. -/
structure Lists (xs : List Fs.Placed) (path : List Fs.Name) (entries : List DirectoryEntry) :
    Prop where
  distinct : (entries.map DirectoryEntry.name).Nodup
  names : ∀ name, name ∈ entries.map DirectoryEntry.name ↔
    ∃ x ∈ xs, path ++ [name] <+: x.entry.path
  sizes : ∀ e ∈ entries, ∀ pre x post, xs = pre ++ x :: post →
    x.entry.path = path ++ [e.name] → (∀ y ∈ post, y.entry.path ≠ path ++ [e.name]) →
    e.size = x.entry.data.length

section Archive
variable {xs : List Fs.Placed} {s : Fs.TarState} {root n c : NodeId} {path : List Fs.Name}
  {k : HashType}

theorem mem_children (built : Fs.Refines s root (Fs.View.of (Fs.early xs)))
    (reached : s.locate root (Fs.keys path) = some n) :
    (k, c) ∈ MapHeap.visited (MapHeap.placed (s.nodes n).children.root) ↔
      s.locate root (Fs.keys path ++ [k]) = some c := by
  rw [(MapHeap.visited_perm _).mem_iff, MapHeap.pairs_placed,
    ← MapNode.tryGetValue_iff (built.sound n).sorted, Fs.TarState.locate,
    descend_snoc reached]
  rfl

theorem child_named (built : Fs.Refines s root (Fs.View.of (Fs.early xs)))
    (apart : Fs.Apart (path :: Fs.paths xs))
    (reached : s.locate root (Fs.keys path ++ [k]) = some c) :
    getHash (s.nodes c).name = k ∧
      ∃ x ∈ Fs.early xs, path ++ [(s.nodes c).name] <+: x.entry.path := by
  obtain ⟨q, here, spelled, named⟩ := built.named _ c reached
  rcases List.eq_nil_or_concat' q with rfl | ⟨front, name, rfl⟩
  · exact absurd spelled.symm (by simp [Fs.keys])
  · rw [Fs.keys_append] at spelled
    obtain ⟨same, last⟩ := List.append_inj' spelled rfl
    rw [List.getLastD_concat] at named
    rcases Fs.View.here_foldl.mp here with none | ⟨x, mem, along⟩
    · exact absurd none (by simp [Fs.View.blank])
    · have old := List.mem_cons_of_mem path (Fs.mem_paths (Fs.mem_early.mp mem).1)
      obtain rfl : front = path := apart.eq_of_keys old List.mem_cons_self
        ((List.prefix_append front [name]).trans along) (List.prefix_refl path) same
      rw [named]
      exact ⟨List.cons.inj last |>.1, x, mem, along⟩

theorem directory_lists (built : Fs.Refines s root (Fs.View.of (Fs.early xs)))
    (apart : Fs.Apart (path :: Fs.paths xs)) (reached : s.resolve root path = some n) :
    Lists (Fs.early xs) path ((visited (s.nodes n).children).map fun c =>
      ⟨(s.nodes c).name, (s.nodes c).size⟩) := by
  rw [Fs.resolve_eq_locate] at reached
  have child : ∀ k c, (k, c) ∈ MapHeap.visited (MapHeap.placed (s.nodes n).children.root) →
      s.locate root (Fs.keys path ++ [k]) = some c := fun k c => (mem_children built reached).mp
  have entries : ((visited (s.nodes n).children).map fun c =>
      (⟨(s.nodes c).name, (s.nodes c).size⟩ : DirectoryEntry)).map DirectoryEntry.name =
        (MapHeap.visited (MapHeap.placed (s.nodes n).children.root)).map fun e =>
          (s.nodes e.2).name := by
    rw [visited, List.map_map, List.map_map]
    rfl
  refine ⟨?_, fun name => ?_, fun e mem pre x post split here last => ?_⟩
  · rw [entries]
    refine List.Nodup.of_map getHash ?_
    have keys : ((MapHeap.visited (MapHeap.placed (s.nodes n).children.root)).map fun e =>
        (s.nodes e.2).name).map getHash =
          (MapHeap.visited (MapHeap.placed (s.nodes n).children.root)).map Prod.fst := by
      rw [List.map_map]
      exact List.map_congr_left fun e mem => (child_named built apart (child e.1 e.2 mem)).1
    rw [keys, ((MapHeap.visited_perm _).map Prod.fst).nodup_iff, MapHeap.pairs_placed,
      List.Nodup, List.pairwise_map]
    exact (built.sound n).sorted.imp fun less => ne_of_lt less
  · rw [entries, List.mem_map]
    constructor
    · rintro ⟨⟨k, c⟩, mem, rfl⟩
      exact (child_named built apart (child k c mem)).2
    · rintro ⟨x, mem, along⟩
      obtain ⟨c, there⟩ := built.resolve_present mem along
      rw [Fs.resolve_eq_locate, Fs.keys_append] at there
      obtain ⟨same, y, mem', along'⟩ := child_named built apart there
      refine ⟨(getHash name, c), (mem_children built reached).mpr there, ?_⟩
      exact apart _ (List.mem_cons_of_mem _ (Fs.mem_paths (Fs.mem_early.mp mem').1)) _
        (List.mem_cons_of_mem _ (Fs.mem_paths (Fs.mem_early.mp mem).1)) path _ _ along' along same
  · obtain ⟨c, visits, rfl⟩ := List.mem_map.mp mem
    obtain ⟨⟨k, c⟩, mem', rfl⟩ := List.mem_map.mp visits
    have there := child k c mem'
    rw [← (child_named built apart there).1] at there
    have inside : x ∈ xs := (Fs.mem_early.mp (split ▸ List.mem_append_right _ List.mem_cons_self)).1
    have apart' : Fs.Apart ((path ++ [(s.nodes c).name]) :: Fs.paths xs) := by
      rw [← here]
      exact Fs.Apart.cons_self (fun p hp q hq => apart p (List.mem_cons_of_mem _ hp) q
        (List.mem_cons_of_mem _ hq)) (Fs.mem_paths inside)
    refine built.size_at apart' split here last ?_
    rw [Fs.resolve_eq_locate, Fs.keys_append]
    exact there

theorem directory_usr {π : Type} {p : Place π}
    (built : Fs.Refines p.mounts.tar p.root (Fs.View.of (Fs.early xs)))
    (components : ∀ c ∈ path, c ≠ [] ∧ 0 ∉ c ∧ 47 ∉ c)
    (apart : Fs.Apart (path :: Fs.paths xs))
    (there : path = [] ∨ ∃ x ∈ Fs.early xs, path <+: x.entry.path)
    (directory : ∀ y ∈ xs, y.entry.kind = .file → y.entry.path ≠ path) :
    ∃ entries, p.directory ([47].intercalate (usrName :: path)) = some ⟨entries, 0, false⟩ ∧
      Lists (Fs.early xs) path entries := by
  obtain ⟨n, reached⟩ : ∃ n, p.mounts.tar.resolve p.root path = some n := by
    rcases there with rfl | ⟨x, mem, along⟩
    · exact ⟨p.root, rfl⟩
    · exact built.resolve_present mem along
  have plain : ¬ (p.mounts.tar.nodes n).hasBlockOffset = true := by
    rw [built.file_iff apart reached]
    rintro ⟨y, mem, file, same⟩
    exact directory y (Fs.mem_early.mp mem).1 file same
  refine ⟨_, ?_, directory_lists built apart reached⟩
  rw [Place.directory, meaning_usr _ _ _ components, reached]
  exact if_neg plain

end Archive

section Boot
variable {π : Type} [DecidableEq π] (process : FileCalls.ThreadId → π) (me : FileCalls.ThreadId)
  (hw : Hardware) (blockDevice : DeviceId → Option Fs.Device) {devices : DeviceManager}
  {bootDeviceName : Fs.Name} {device d : DeviceId} {dev : Fs.BlockDevice} {A : Fs.Archive dev}
  {path : List Fs.Name} {spare : Nat}

/-- After the start of the kernel `ls` prints for a directory of the archive a line for each name
in it, whatever other processes do meanwhile, unless they halt the kernel. -/
theorem ls_lists (room : 12 ≤ spare) (named : bootDeviceName ≠ [])
    (found : devices.tryGetDeviceByName bootDeviceName = some device)
    (block : blockDevice device = some dev.device)
    (registered : devices.tryGetDeviceByName consoleName = some d)
    (terminal : hw.terminal d = true) (shown : hw.console d = true)
    (components : ∀ c ∈ path, c ≠ [] ∧ 0 ∉ c ∧ 47 ∉ c) (short : ∀ c ∈ path, c.length < 256)
    (apart : Fs.Apart (path :: Fs.paths A.entries))
    (there : path = [] ∨ ∃ x ∈ Fs.early A.entries, path <+: x.entry.path)
    (directory : ∀ y ∈ A.entries, y.entry.kind = .file → y.entry.path ≠ path) :
    ∃ tree log entries,
      (startTree blockDevice spare bootDeviceName tarfsName).runOn (initial devices) [] =
        (.ok ((), tree), log) ∧ Lists (Fs.early A.entries) path entries ∧
      ∀ (cmdline : CString) (fuel : Nat) (turns : List (List Act)) (log' : List Fs.ReadCall),
        (pathOf cmdline).text = 47 :: [47].intercalate (usrName :: path) →
        entries.length < fuel → (∀ op ∈ turns.flatten, op.Foreign process me) →
        1 + (turns.flatten.length + 2) < Om.errorHandle →
        ((start (main fuel) cmdline).run (serve hw process me) (perform hw process) turns
          (.boot tree) log').Ends fun rc _ w => rc = 0 ∧
            w.writtenBy me = (d, heading (pathOf cmdline).text) ::
              entries.map fun e => (d, line e) := by
  obtain ⟨tree, log, started, rooted, devices', built⟩ := archive_mounted room A named found block
  let p : Place π := ⟨hw, process, tree.pfs, 0, me⟩
  have console : p.Opens ([47].intercalate [devName, consoleName]) (some (.terminalFile d)) :=
    opens_device (by decide) (devices'.symm ▸ registered) terminal
  obtain ⟨entries, opens, lists⟩ := directory_usr (p := p) built components apart there directory
  refine ⟨tree, log, entries, started, lists, ?_⟩
  intro cmdline fuel turns log' text enough foreign room
  exact start_ends rooted console (fun console => main_lists text
    (leading_usr_short components short) opens rfl List.mem_cons_self shown enough) foreign room
    log'

theorem apart_root {paths : List (List Fs.Name)} (h : Fs.Apart paths) : Fs.Apart ([] :: paths) := by
  intro p hp q hq l c d hc hd same
  rcases List.mem_cons.mp hp with rfl | hp
  · exact absurd (List.prefix_nil.mp hc) (by simp)
  · rcases List.mem_cons.mp hq with rfl | hq
    · exact absurd (List.prefix_nil.mp hd) (by simp)
    · exact h p hp q hq l c d hc hd same

/-- Without a path it lists `/usr`. -/
theorem ls_lists_hello :
    ∃ (devices : DeviceManager) (tree : Tree) (log : List Fs.ReadCall)
      (entries : List DirectoryEntry),
      (startTree (fun _ => some Fs.helloDevice.device) 12 ataName tarfsName).runOn
        (initial devices) [] = (.ok ((), tree), log) ∧
      Lists (Fs.early Fs.helloArchive.entries) [] entries ∧
      ((start (main (entries.length + 1)) ⟨[], List.not_mem_nil⟩).run (serve helloHardware id 0)
        (perform helloHardware id) helloTurns (.boot tree) []).Ends fun rc _ w => rc = 0 ∧
          w.writtenBy 0 = (1, heading usrPath.text) :: entries.map fun e => (1, line e) := by
  obtain ⟨devices, found, registered⟩ := two_devices
  have apart := apart_root Fs.helloArchive.apart
  obtain ⟨tree, log, entries, started, lists, prints⟩ := ls_lists id 0 helloHardware
    (fun _ => some Fs.helloDevice.device) (Nat.le_refl 12) (List.cons_ne_nil _ _) found rfl
    registered rfl rfl (by decide) (by decide) apart (.inl rfl) (by decide)
  refine ⟨devices, tree, log, entries, started, lists, ?_⟩
  have room : 1 + (helloTurns.flatten.length + 2) < Om.errorHandle := by decide
  have foreign := helloTurns_foreign
  generalize helloTurns = turns at foreign room ⊢
  exact prints ⟨[], List.not_mem_nil⟩ _ turns [] rfl (Nat.lt_succ_self _) foreign room

end Boot
end Infos.User.Ls
