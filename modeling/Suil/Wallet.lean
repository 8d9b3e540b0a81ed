/-
The wallet of the sawtooth client.

A wallet is a master key and some named keys, kept in a file that is encrypted with a
secret.  What a save needs of the operating system is an input of the save, and so are the
texts of the keys.  A save clears the mark of the wallet before it has written anything, puts
the wallet on a board of 1024 bytes and removes the old file before it writes the new one,
without looking at how much of it was written.

* `open_saved` — the file that a save writes is opened to the same wallet;
* `save_complete`, `save_raised` — the saves that go through, and what is left of the others;
* `run_kept` — of every run, the moves after which nothing is lost.
-/
import Suil.Encryption
import Suil.Json
import Suil.SrpcRequests
import Suil.StringKeys
import Suil.Lib.Runs

open Runs

namespace Suil.Saw

/-- A `String`, whose size has 32 bits. -/
abbrev Str := { s : Bytes // s.length < 2 ^ 32 }

structure WalletEntry where
  name : Bytes := []
  key : Bytes := []
deriving DecidableEq

structure WalletSchema where
  masterKey : Bytes := []
  keys : List WalletEntry := []
deriving DecidableEq

def WalletEntry.wire : WireType (Bytes × Bytes × Unit) :=
  .metaType (.member .string (.member .string .done)) ([], [], ())

def WalletEntry.members (e : WalletEntry) : Bytes × Bytes × Unit := (e.name, e.key, ())

def WalletEntry.ofMembers (m : Bytes × Bytes × Unit) : WalletEntry := ⟨m.1, m.2.1⟩

def WalletSchema.wire : WireType (Bytes × List (Bytes × Bytes × Unit) × Unit) :=
  .metaType (.member .string (.member (.vector WalletEntry.wire) .done)) ([], [], ())

def WalletSchema.members (d : WalletSchema) : Bytes × List (Bytes × Bytes × Unit) × Unit :=
  (d.masterKey, d.keys.map WalletEntry.members, ())

def WalletSchema.ofMembers (m : Bytes × List (Bytes × Bytes × Unit) × Unit) : WalletSchema :=
  ⟨m.1, m.2.1.map WalletEntry.ofMembers⟩

/-- The bytes that a wallet takes on a board. -/
def WalletSchema.size (d : WalletSchema) : ℕ := WalletSchema.wire.maxByteSize d.members

/-- The wallet on a `HeapBoard` of 1024 bytes; none when a push finds no room.  (No wallet
has 2^64 keys.) -/
def WalletSchema.raw (d : WalletSchema) : Option Bytes :=
  (WalletSchema.wire.encode d.members).filter (·.length ≤ 1024)

structure Wallet where
  data : WalletSchema := {}
  path : CString
  secret : Bytes
  dirty : Bool := false
deriving DecidableEq

inductive Exception where
  | walletError (message : Bytes)
  | fileIOException
  | accessViolation
  | bufferOutOfMemory
deriving DecidableEq

/-- `throw WalletError(…)` -/
def walletError {α : Type} (message : Bytes) : Call Exception α :=
  .error (.raised (.walletError message))

/-- The files, by their paths. -/
abbrev Files := CString → Option Bytes

/-- What the operating system does for one save: whether it removes the file, whether it
opens one, and how many bytes get into it. -/
structure Disk where
  removes : Bool
  opens : Bool
  written : ℕ
deriving DecidableEq

section

variable (evp : Encryption.EVP)

/-- `Wallet::open`, with what is in memory behind the text of the file.  `readall` throws for
more than a megabyte; every exception of the board is caught. -/
def Wallet.open (behind : ℕ → UInt8) (files : Files) (path : CString) (secret : Bytes) :
    Call Exception Wallet :=
  match files path with
  | none => walletError (ascii "Wallet '" ++ path.bytes ++ ascii "' not found")
  | some encrypted =>
    if 1048576 < encrypted.length then .error (.raised .fileIOException)
    else if encrypted = [] then
      walletError (ascii "Wallet '" ++ path.bytes ++ ascii "' does not contain a valid key")
    else
      match Encryption.decrypt evp behind secret encrypted true with
      | none => .error .crash
      | some decrypted =>
        if decrypted = [] then
          walletError (ascii "Unlocking wallet failed, check wallet secret")
        else
          match WalletSchema.wire.decode ([], [], ()) decrypted with
          | none => walletError (ascii "Invalid wallet file contents")
          | some (m, _) => .ok { data := .ofMembers m, path, secret }

/-- `Wallet::create`, for the text of the key that is generated. -/
def Wallet.create (files : Files) (path : CString) (secret key : Bytes) : Call Exception Wallet :=
  if (files path).isSome then
    walletError (ascii "Wallet '" ++ path.bytes ++ ascii "' already exist")
  else .ok { data := { masterKey := key }, path, secret, dirty := true }

/-- `Wallet::generate`, for the text of the key that is generated. -/
def Wallet.generate (w : Wallet) (name key : Bytes) : Call Exception Wallet :=
  let lowerName := name.map lower
  if w.data.keys.any fun e => strEq e.name lowerName then
    walletError (ascii "A key with name '" ++ name ++ ascii "' already exists in wallet")
  else
    .ok { w with data := { w.data with keys := w.data.keys ++ [⟨lowerName, key⟩] }, dirty := true }

/-- `Wallet::save`: how it ends, and the wallet and the files after it. -/
def Wallet.save (w : Wallet) (files : Files) (disk : Disk) : Call Exception Unit × Wallet × Files :=
  if w.dirty then
    let clean := { w with dirty := false }
    match w.data.raw with
    | none => (.error (.raised .bufferOutOfMemory), clean, files)
    | some raw =>
      match Encryption.encrypt evp w.secret raw true with
      | none => (.error .crash, clean, files)
      | some encrypted =>
        if encrypted = [] then
          (walletError (ascii "Encrypting wallet file failed"), clean, files)
        else if (files w.path).isSome ∧ !disk.removes then
          (.error (.raised .fileIOException), clean, files)
        else
          let gone := Function.update files w.path none
          if disk.opens then
            -- `fs::append`, which does not look at what `File::write` returns
            (.ok (), clean, Function.update gone w.path (some (encrypted.take disk.written)))
          else (.error (.raised .accessViolation), clean, gone)
  else (.ok (), w, files)

/-- The files, and the wallets that were created. -/
structure State where
  files : Files
  wallets : List Wallet

inductive Op where
  | create (path : CString) (secret key : Str)
  | generate (i : ℕ) (name key : Str)
  | save (i : ℕ) (disk : Disk)

/-- One call, on one of the wallets.  A call that crashes is not answered. -/
def step (s : State) : Op → Option (Call Exception Unit × State)
  | .create path secret key =>
    match Wallet.create s.files path secret key with
    | .error e => some (.error e, s)
    | .ok w => some (.ok (), { s with wallets := s.wallets ++ [w] })
  | .generate i name key => (s.wallets[i]?).bind fun w =>
    match w.generate name key with
    | .error e => some (.error e, s)
    | .ok w => some (.ok (), { s with wallets := s.wallets.set i w })
  | .save i disk => (s.wallets[i]?).bind fun w =>
    let r := w.save evp s.files disk
    if r.1 = .error .crash then none else some (r.1, ⟨r.2.2, s.wallets.set i r.2.1⟩)

/-- The file of the wallet is opened to what is in the wallet. -/
def Restored (behind : ℕ → UInt8) (files : Files) (w : Wallet) : Prop :=
  ∃ v, Wallet.open evp behind files w.path w.secret = .ok v ∧ v.data = w.data

/-- After a save that returns the wallet can be opened from its file; a save that throws leaves
the file, and the wallet with its mark. -/
def Kept (behind : ℕ → UInt8) (m : Move State Op (Call Exception Unit)) : Prop :=
  ∀ i disk w, m.input = .save i disk → m.before.wallets[i]? = some w →
    match m.output with
    | .ok _ => Restored evp behind m.after.files w
    | .error _ => m.after.files w.path = m.before.files w.path ∧
        m.after.wallets[i]? = some { w with dirty := true }

/-- The characters of the encryption of so many bytes. -/
def textLength (size : ℕ) : ℕ := 4 * (((size / 16 + 1) * 16 + 2) / 3)

end

/-- A save with something to write finds room on the board, and the operating system removes
the old file and opens the new one. -/
def Passes (s : State) : Op → Prop
  | .create _ _ _ => True
  | .generate _ _ _ => True
  | .save i disk => ∀ w ∈ s.wallets[i]?, w.dirty = true →
    w.data.size ≤ 1024 ∧ ((s.files w.path).isSome → disk.removes = true) ∧ disk.opens = true

/-- The text of a save is written in full, and every wallet is created with a path of its own. -/
def Alone (s : State) : Op → Prop
  | .create path _ _ => ∀ w ∈ s.wallets, w.path ≠ path
  | .generate _ _ _ => True
  | .save i disk => ∀ w ∈ s.wallets[i]?, w.dirty = true → textLength w.data.size ≤ disk.written

instance (s : State) : DecidablePred (Passes s)
  | .create _ _ _ => inferInstanceAs (Decidable True)
  | .generate _ _ _ => inferInstanceAs (Decidable True)
  | .save i disk => inferInstanceAs (Decidable (∀ w ∈ s.wallets[i]?, w.dirty = true →
      w.data.size ≤ 1024 ∧ ((s.files w.path).isSome → disk.removes = true) ∧ disk.opens = true))

instance (s : State) : DecidablePred (Alone s)
  | .create path _ _ => inferInstanceAs (Decidable (∀ w ∈ s.wallets, w.path ≠ path))
  | .generate _ _ _ => inferInstanceAs (Decidable True)
  | .save i disk => inferInstanceAs (Decidable (∀ w ∈ s.wallets[i]?, w.dirty = true →
      textLength w.data.size ≤ disk.written))

/-- The strings of a wallet are strings. -/
def WalletSchema.Strings (d : WalletSchema) : Prop :=
  d.masterKey.length < 2 ^ 32 ∧ ∀ e ∈ d.keys, e.name.length < 2 ^ 32 ∧ e.key.length < 2 ^ 32

section

variable {evp : Encryption.EVP} {behind : ℕ → UInt8} {w v : Wallet} {files files' : Files}
  {disk : Disk} {d : WalletSchema} {secret raw text : Bytes} {path : CString} {s t : State}
  {op : Op} {o : Call Exception Unit} {i j : ℕ}

/-! ### The board -/

theorem ofMembers_members (d : WalletSchema) : WalletSchema.ofMembers d.members = d := by
  have hentry : WalletEntry.ofMembers ∘ WalletEntry.members = id := rfl
  rw [WalletSchema.ofMembers, WalletSchema.members, List.map_map, hentry, List.map_id]

theorem raw_eq_some_iff :
    d.raw = some raw ↔ WalletSchema.wire.encode d.members = some raw ∧ raw.length ≤ 1024 := by
  simp [WalletSchema.raw, Option.filter_eq_some_iff]

theorem length_raw (h : d.raw = some raw) : raw.length = d.size ∧ d.size ≤ 1024 := by
  obtain ⟨hencode, hle⟩ := raw_eq_some_iff.mp h
  have hlen : raw.length = d.size := WalletSchema.wire.encode_length hencode
  exact ⟨hlen, hlen ▸ hle⟩

theorem keys_length_le (d : WalletSchema) : d.keys.length ≤ d.size := by
  have hpos : ∀ n ∈ (d.keys.map WalletEntry.members).map WalletEntry.wire.maxByteSize, 1 ≤ n := by
    intro n hn
    obtain ⟨m, -, rfl⟩ := List.mem_map.mp hn
    simp only [WalletEntry.wire, WireType.maxByteSize]
    omega
  have hsum := List.length_le_sum_of_one_le _ hpos
  rw [List.length_map, List.length_map] at hsum
  simp only [WalletSchema.size, WalletSchema.wire, WalletSchema.members, WireType.maxByteSize]
  omega

theorem restores_string {b : Bytes} (h : b.length < 2 ^ 32) : WireType.string.Restores b [] := by
  rw [WireType.Restores]
  split_ifs with hzero
  · rw [Nat.mod_eq_of_lt h] at hzero
    exact (List.length_eq_zero_iff.mp hzero).symm
  · exact h

/-- What is on the board is read back. -/
theorem wire_roundTrips (h : d.Strings) (hsize : d.size ≤ 1024) :
    WalletSchema.wire.RoundTrips d.members ([], [], ()) := by
  have hkeys := keys_length_le d
  rw [WireType.roundTrips_iff]
  refine ⟨restores_string h.1, ⟨rfl, ?_, ?_⟩, trivial⟩
  · rw [List.length_map]
    omega
  · intro m hm
    obtain ⟨e, he, rfl⟩ := List.mem_map.mp hm
    obtain ⟨hname, hkey⟩ := h.2 e he
    exact ⟨restores_string hname, restores_string hkey, trivial⟩

theorem raw_isSome (h : d.Strings) (hsize : d.size ≤ 1024) : ∃ raw, d.raw = some raw := by
  obtain ⟨raw, hencode, -⟩ := wire_roundTrips h hsize
  have hlen := WalletSchema.wire.encode_length hencode
  exact ⟨raw, raw_eq_some_iff.mpr ⟨hencode, hlen.trans_le hsize⟩⟩

theorem decode_raw (h : d.Strings) (hraw : d.raw = some raw) (rest : Bytes) :
    WalletSchema.wire.decode ([], [], ()) (raw ++ rest) = some (d.members, rest) := by
  obtain ⟨bs, hencode, hdecode⟩ := wire_roundTrips h (length_raw hraw).2
  obtain rfl := Option.some.inj (hencode.symm.trans (raw_eq_some_iff.mp hraw).1)
  exact hdecode rest

/-! ### The file -/

theorem length_text (h : evp.Trusted) (hraw : d.raw = some raw)
    (htext : Encryption.encrypt evp secret raw true = some text) :
    text.length = textLength d.size ∧ 0 < text.length ∧ text.length ≤ 1048576 := by
  obtain ⟨hlen, hsize⟩ := length_raw hraw
  obtain ⟨rfl, -⟩ := Encryption.decrypt_text h (fun _ => 0) (by omega) htext
  rw [Base64.length_encodeText, Base64.groups, h.length_encrypt, hlen, textLength]
  refine ⟨rfl, ?_, ?_⟩
  · omega
  · omega

/-- **The file of a save** is opened to what was saved; the zero byte behind it is left on the
board. -/
theorem open_saved (h : evp.Trusted) (behind : ℕ → UInt8) (hd : d.Strings) (hraw : d.raw = some raw)
    (htext : Encryption.encrypt evp secret raw true = some text) (hfile : files path = some text) :
    Wallet.open evp behind files path secret = .ok { data := d, path, secret } := by
  obtain ⟨hlen, hsize⟩ := length_raw hraw
  obtain ⟨-, hpos, hle⟩ := length_text h hraw htext
  obtain ⟨-, hdecrypt⟩ := Encryption.decrypt_text h behind (by omega) htext
  have hplain : raw ++ [0] ≠ [] := List.append_ne_nil_of_right_ne_nil raw (List.cons_ne_nil 0 [])
  rw [Wallet.open, hfile]
  simp only
  rw [if_neg (not_lt.mpr hle), if_neg (List.ne_nil_of_length_pos hpos), hdecrypt]
  simp only
  rw [if_neg hplain, decode_raw hd hraw]
  simp only [ofMembers_members]

/-- A wallet is opened from its own file. -/
theorem Restored.congr (h : Restored evp behind files w) (hfile : files' w.path = files w.path) :
    Restored evp behind files' w := by
  obtain ⟨v, hopen, hdata⟩ := h
  refine ⟨v, ?_, hdata⟩
  rw [← hopen, Wallet.open, Wallet.open, hfile]

/-! ### A save -/

theorem save_clean (h : w.dirty = false) : w.save evp files disk = (.ok (), w, files) := by
  rw [Wallet.save, h]
  rfl

/-- However it ends, a save clears the mark, and changes no other file. -/
theorem save_after (w : Wallet) (files : Files) (disk : Disk) :
    (w.save evp files disk).2.1 = { w with dirty := false } ∧
      ∀ path, path ≠ w.path → (w.save evp files disk).2.2 path = files path := by
  cases hdirty : w.dirty with
  | false =>
    rw [save_clean hdirty, ← hdirty]
    exact ⟨rfl, fun _ _ => rfl⟩
  | true =>
    rw [Wallet.save, if_pos hdirty]
    rcases hraw : w.data.raw with _ | raw
    · exact ⟨rfl, fun _ _ => rfl⟩
    rcases htext : Encryption.encrypt evp w.secret raw true with _ | text
    · simp [htext]
    simp only [htext]
    split_ifs
    · exact ⟨rfl, fun _ _ => rfl⟩
    · exact ⟨rfl, fun _ _ => rfl⟩
    · -- removed and written again
      exact ⟨rfl, fun path hne => (Function.update_of_ne hne _ _).trans
        (Function.update_of_ne hne _ _)⟩
    · exact ⟨rfl, fun path hne => Function.update_of_ne hne _ _⟩

/-- What a save that returns had: room on the board, and an operating system that did its
part. -/
theorem save_returned (hdirty : w.dirty = true) (hok : (w.save evp files disk).1 = .ok ()) :
    w.data.size ≤ 1024 ∧ ((files w.path).isSome → disk.removes = true) ∧ disk.opens = true := by
  rw [Wallet.save, if_pos hdirty] at hok
  simp only at hok
  rcases hraw : w.data.raw with _ | raw
  · simp [hraw] at hok
  rcases htext : Encryption.encrypt evp w.secret raw true with _ | text
  · simp [hraw, htext] at hok
  simp only [hraw, htext] at hok
  split_ifs at hok with hempty hremoves hopens
  · cases hok
  · refine ⟨(length_raw hraw).2, fun hfile => ?_, hopens⟩
    simpa [hfile] using hremoves

/-- **A save that goes through** leaves a file from which the wallet is opened. -/
theorem save_complete (h : evp.Trusted) (hdirty : w.dirty = true) (hd : w.data.Strings)
    (hsize : w.data.size ≤ 1024) (hremoves : (files w.path).isSome → disk.removes = true)
    (hopens : disk.opens = true) (hwritten : textLength w.data.size ≤ disk.written)
    (hlive : (w.save evp files disk).1 ≠ .error .crash) :
    (w.save evp files disk).1 = .ok () ∧ Restored evp behind (w.save evp files disk).2.2 w := by
  obtain ⟨raw, hraw⟩ := raw_isSome hd hsize
  rw [Wallet.save, if_pos hdirty] at hlive ⊢
  simp only [hraw] at hlive ⊢
  rcases htext : Encryption.encrypt evp w.secret raw true with _ | text
  · simp [htext] at hlive
  obtain ⟨hlen, hpos, -⟩ := length_text h hraw htext
  have hkept : ¬((files w.path).isSome ∧ !disk.removes) := by
    rintro ⟨hfile, hno⟩
    simp [hremoves hfile] at hno
  simp only
  rw [if_neg (List.ne_nil_of_length_pos hpos), if_neg hkept, if_pos hopens,
    List.take_of_length_le (hlen.trans_le hwritten)]
  exact ⟨rfl, _, open_saved h behind hd hraw htext (Function.update_self _ _ _), rfl⟩

/-! ### The runs -/

/-- Before every move the wallets have paths of their own, and those without a mark can be
opened from their files. -/
structure Inv (evp : Encryption.EVP) (behind : ℕ → UInt8) (s : State) : Prop where
  apart : ∀ (i j : ℕ) (v w : Wallet), s.wallets[i]? = some v → s.wallets[j]? = some w →
    v.path = w.path → i = j
  strings : ∀ w ∈ s.wallets, w.data.Strings
  saved : ∀ w ∈ s.wallets, w.dirty = false → Restored evp behind s.files w

theorem start_inv (files : Files) : Inv evp behind ⟨files, []⟩ where
  apart i j v w hv := by simp at hv
  strings w hw := by simp at hw
  saved w hw := by simp at hw

theorem mem_set_cases {ws : List Wallet} (h : v ∈ ws.set i w) :
    v = w ∨ ∃ j, i ≠ j ∧ ws[j]? = some v := by
  obtain ⟨j, hj⟩ := List.mem_iff_getElem?.mp h
  rw [List.getElem?_set] at hj
  split_ifs at hj with hij
  · exact Or.inl (Option.some.inj hj).symm
  · exact Or.inr ⟨j, hij, hj⟩

/-- A wallet that is put back keeps its path. -/
theorem set_path {ws : List Wallet} {u : Wallet} (hw : ws[i]? = some w) (hpath : u.path = w.path)
    (h : (ws.set i u)[j]? = some v) : ∃ v', ws[j]? = some v' ∧ v'.path = v.path := by
  rw [List.getElem?_set] at h
  split_ifs at h with hij
  · obtain rfl := Option.some.inj h
    exact ⟨w, hij ▸ hw, hpath.symm⟩
  · exact ⟨v, h, rfl⟩

/-- What a call does to one wallet: it keeps its path and its strings, and when the wallet has no
mark after it the file is opened to it; no other file is touched. -/
theorem Inv.set {u : Wallet} (h : Inv evp behind s) (hw : s.wallets[i]? = some w)
    (hpath : u.path = w.path) (hstrings : u.data.Strings)
    (hsaved : u.dirty = false → Restored evp behind files u)
    (hfiles : ∀ path, path ≠ w.path → files path = s.files path) :
    Inv evp behind ⟨files, s.wallets.set i u⟩ where
  apart i' j' v v' hv hv' heq := by
    obtain ⟨a, ha, hapath⟩ := set_path hw hpath hv
    obtain ⟨b, hb, hbpath⟩ := set_path hw hpath hv'
    exact h.apart i' j' a b ha hb (hapath.trans (heq.trans hbpath.symm))
  strings v hv := by
    rcases mem_set_cases hv with rfl | ⟨j, -, hj⟩
    · exact hstrings
    · exact h.strings v (List.mem_of_getElem? hj)
  saved v hv hclean := by
    rcases mem_set_cases hv with rfl | ⟨j, hij, hj⟩
    · exact hsaved hclean
    · -- the file of another wallet is another file
      have hne : v.path ≠ w.path := fun heq => hij (h.apart i j w v hw hj heq.symm)
      exact (h.saved v (List.mem_of_getElem? hj) hclean).congr (hfiles _ hne)

theorem Inv.create {secret key : Bytes} (h : Inv evp behind s) (hkey : key.length < 2 ^ 32)
    (hpath : ∀ w ∈ s.wallets, w.path ≠ path) :
    Inv evp behind { s with wallets := s.wallets ++
      [{ data := { masterKey := key }, path, secret, dirty := true }] } where
  apart i j v w hv hw heq := by
    rw [List.getElem?_append] at hv hw
    split_ifs at hv hw with hi hj hj
    · exact h.apart i j v w hv hw heq
    · obtain rfl := List.mem_singleton.mp (List.mem_of_getElem? hw)
      exact absurd heq (hpath v (List.mem_of_getElem? hv))
    · obtain rfl := List.mem_singleton.mp (List.mem_of_getElem? hv)
      exact absurd heq.symm (hpath w (List.mem_of_getElem? hw))
    · obtain ⟨hi', -⟩ := List.getElem?_eq_some_iff.mp hv
      obtain ⟨hj', -⟩ := List.getElem?_eq_some_iff.mp hw
      simp only [List.length_singleton] at hi' hj'
      omega
  strings w hw := by
    rcases List.mem_append.mp hw with hw | hw
    · exact h.strings w hw
    · obtain rfl := List.mem_singleton.mp hw
      exact ⟨hkey, fun e he => absurd he List.not_mem_nil⟩
  saved w hw hclean := by
    rcases List.mem_append.mp hw with hw | hw
    · exact h.saved w hw hclean
    · obtain rfl := List.mem_singleton.mp hw
      cases hclean

/-- What a generated key leaves of a wallet. -/
theorem generate_ok {name key : Bytes} (hw : w.data.Strings) (hname : name.length < 2 ^ 32)
    (hkey : key.length < 2 ^ 32) (h : w.generate name key = .ok v) :
    v.path = w.path ∧ v.data.Strings ∧ v.dirty = true := by
  rw [Wallet.generate] at h
  simp only at h
  split_ifs at h
  · cases h
  · obtain rfl := Except.ok.inj h
    refine ⟨rfl, ⟨hw.1, fun e he => ?_⟩, rfl⟩
    rcases List.mem_append.mp he with he | he
    · exact hw.2 e he
    · obtain rfl := List.mem_singleton.mp he
      exact ⟨by rwa [List.length_map], hkey⟩

/-- How a save of one of the wallets is answered. -/
theorem step_save (h : step evp s (.save i disk) = some (o, t)) :
    ∃ w, s.wallets[i]? = some w ∧ o = (w.save evp s.files disk).1 ∧ o ≠ .error .crash ∧
      t = ⟨(w.save evp s.files disk).2.2, s.wallets.set i { w with dirty := false }⟩ := by
  obtain ⟨w, hw, h⟩ := Option.bind_eq_some_iff.mp h
  simp only at h
  split_ifs at h with hcrash
  obtain ⟨rfl, rfl⟩ := Prod.mk.inj (Option.some.inj h)
  refine ⟨w, hw, rfl, hcrash, ?_⟩
  rw [(save_after w s.files disk).1]

/-- **The saves that go through.** -/
theorem Inv.save (htrusted : evp.Trusted) (h : Inv evp behind s)
    (hstep : step evp s (.save i disk) = some (o, t)) (hpasses : Passes s (.save i disk))
    (halone : Alone s (.save i disk)) :
    ∃ w, s.wallets[i]? = some w ∧ o = .ok () ∧ Restored evp behind t.files w ∧
      Inv evp behind t := by
  obtain ⟨w, hw, rfl, hlive, rfl⟩ := step_save hstep
  have hmem := List.mem_of_getElem? hw
  have hframe : ∀ path, path ≠ w.path → (w.save evp s.files disk).2.2 path = s.files path :=
    (save_after w s.files disk).2
  have hdone : (w.save evp s.files disk).1 = .ok () ∧
      Restored evp behind (w.save evp s.files disk).2.2 w := by
    cases hdirty : w.dirty with
    | false =>
      rw [save_clean hdirty]
      exact ⟨rfl, h.saved w hmem hdirty⟩
    | true =>
      obtain ⟨hsize, hremoves, hopens⟩ := hpasses w hw hdirty
      exact save_complete htrusted hdirty (h.strings w hmem) hsize hremoves hopens
        (halone w hw hdirty) hlive
  exact ⟨w, hw, hdone.1, hdone.2, h.set hw rfl (h.strings w hmem) (fun _ => hdone.2) hframe⟩

/-- What one move keeps. -/
theorem step_inv (htrusted : evp.Trusted) (h : Inv evp behind s)
    (hstep : step evp s op = some (o, t)) (hpasses : Passes s op) (halone : Alone s op) :
    Inv evp behind t ∧ Kept evp behind ⟨s, op, o, t⟩ := by
  cases op with
  | create path secret key =>
    refine ⟨?_, fun _ _ _ hop => by cases hop⟩
    rw [step, Wallet.create] at hstep
    split_ifs at hstep with hfile
    · obtain ⟨-, rfl⟩ := Prod.mk.inj (Option.some.inj hstep)
      exact h
    · obtain ⟨-, rfl⟩ := Prod.mk.inj (Option.some.inj hstep)
      exact h.create key.2 halone
  | generate i name key =>
    refine ⟨?_, fun _ _ _ hop => by cases hop⟩
    obtain ⟨w, hw, hstep⟩ := Option.bind_eq_some_iff.mp hstep
    rcases hgen : w.generate name key with e | u
    · rw [hgen] at hstep
      obtain ⟨-, rfl⟩ := Prod.mk.inj (Option.some.inj hstep)
      exact h
    · rw [hgen] at hstep
      obtain ⟨-, rfl⟩ := Prod.mk.inj (Option.some.inj hstep)
      obtain ⟨hpath, hstrings, hdirty⟩ :=
        generate_ok (h.strings w (List.mem_of_getElem? hw)) name.2 key.2 hgen
      refine h.set hw hpath hstrings (fun hclean => ?_) fun _ _ => rfl
      rw [hdirty] at hclean
      cases hclean
  | save i disk =>
    obtain ⟨w, hw, rfl, hrestored, hinv⟩ := h.save htrusted hstep hpasses halone
    refine ⟨hinv, ?_⟩
    intro i' disk' w' hop hw'
    obtain ⟨rfl, rfl⟩ := Op.save.inj hop
    obtain rfl := Option.some.inj (hw.symm.trans hw')
    exact hrestored

/-- After a save that throws the mark is gone, so every save that loses nothing returns. -/
theorem passes_of_kept (hstep : step evp s op = some (o, t)) (hkept : Kept evp behind ⟨s, op, o, t⟩) :
    Passes s op := by
  cases op with
  | create path secret key => trivial
  | generate i name key => trivial
  | save i disk =>
    intro w hw hdirty
    obtain ⟨w', hw', rfl, -, rfl⟩ := step_save hstep
    obtain rfl := Option.some.inj (hw.symm.trans hw')
    have hmove := hkept i disk w rfl hw
    -- a save that throws would have to leave the mark
    rcases hsave : (w.save evp s.files disk).1 with e | u
    · rw [hsave] at hmove
      have hset : (s.wallets.set i { w with dirty := false })[i]? =
          some { w with dirty := false } := by
        rw [List.getElem?_set_self' , hw]
        rfl
      have heq := congrArg Wallet.dirty (Option.some.inj (hset.symm.trans hmove.2))
      cases heq
    · exact save_returned hdirty hsave

/-- **Of every run**: when each save with something to write has room, its file is written in
full by an operating system that does its part, and no two wallets have one path, then every
save leaves a file from which the wallet is opened, and so does the run for every wallet without
a mark.  A save without room or with a file that is not removed or not opened does lose. -/
theorem run_kept (h : evp.Trusted) (behind : ℕ → UInt8) (files : Files) {t : State}
    {ms : List (Move State Op (Call Exception Unit))} (hrun : Run (step evp) ⟨files, []⟩ ms t) :
    ((∀ m ∈ ms, Passes m.before m.input ∧ Alone m.before m.input) →
      (∀ m ∈ ms, Kept evp behind m) ∧
        ∀ w ∈ t.wallets, w.dirty = false → Restored evp behind t.files w) ∧
      ∀ m ∈ ms, Kept evp behind m → Passes m.before m.input := by
  constructor
  · intro hall
    obtain ⟨hkept, hinv⟩ := hrun.moves_of (G := fun s op => Passes s op ∧ Alone s op)
      (start_inv files) (fun _ _ _ _ hinv hmove hstep => step_inv h hinv hstep hmove.1 hmove.2) hall
    exact ⟨hkept, hinv.saved⟩
  · intro m hm hkept
    exact passes_of_kept (hrun.step_of_mem hm) hkept

end

namespace Sample

def path : CString := ⟨ascii "wallet", by decide⟩

def secret : Str := ⟨ascii "secret", by decide⟩

/-- The text of a public key. -/
def key : Str :=
  ⟨ascii "0279be667ef9dcbbac55a06295ce870b07029bfcdb2dce28d959f2815b16f81798", by decide +kernel⟩

/-- A wallet without named keys, on the board. -/
def raw : Bytes := [1, 66] ++ key.1 ++ [0]

/-- What AES makes of it with the secret `secret`. -/
def cipherText : Bytes :=
  [0x58, 0x5a, 0xfa, 0xe7, 0x7b, 0xa6, 0x79, 0x7a, 0x62, 0x35, 0xf2, 0xe1, 0x9e, 0x58, 0x8d, 0x54,
   0xb3, 0xcd, 0x39, 0x32, 0xa2, 0xdc, 0x00, 0x99, 0x4d, 0xc0, 0x87, 0x47, 0x3a, 0x90, 0x29, 0x36,
   0xb6, 0xfb, 0x27, 0x27, 0xe6, 0x38, 0x18, 0x37, 0x28, 0x2f, 0x07, 0x60, 0x20, 0xb6, 0x5c, 0x18,
   0x66, 0x8e, 0x09, 0xcc, 0xb8, 0xb4, 0x61, 0x0b, 0x61, 0xe1, 0x8c, 0xb4, 0x5e, 0x01, 0x36, 0x01,
   0x08, 0x0a, 0xd6, 0x74, 0xe9, 0x3c, 0xca, 0x14, 0xf6, 0xd2, 0x2a, 0xbf, 0x6b, 0xbe, 0xb0, 0xfb]

/-- The blocks of the wallet. -/
def blocks : List (Bytes × Bytes) :=
  BlockCipher.chainPairs 16 Encryption.Sample.iv 5 (BlockCipher.pad 16 raw) cipherText

def openssl : Encryption.EVP :=
  Encryption.Sample.chained (BlockCipher.exchange blocks) (BlockCipher.exchange blocks).symm

theorem trusted : openssl.Trusted :=
  Encryption.Sample.chained_trusted (BlockCipher.laws_exchange (by decide +kernel))

/-- Nothing goes wrong. -/
def disk : Disk := ⟨true, true, 4096⟩

/-- The name of a key, of one letter. -/
def letter (k : ℕ) : Str := ⟨[97 + k.toUInt8], by simp⟩

end Sample

open Sample in
theorem run_kept_one :
    let ops : List Op := [.create path secret key, .save 0 disk, .generate 0 (letter 0) key]
    let ms := moves (step openssl) ⟨fun _ => none, []⟩ ops
    let t := final (step openssl) ⟨fun _ => none, []⟩ ops
    ((∀ m ∈ ms, Kept openssl (fun _ => 0) m) ∧
        ∀ w ∈ t.wallets, w.dirty = false → Restored openssl (fun _ => 0) t.files w) ∧
      t.files path = some (Base64.encodeText cipherText) :=
  ⟨(run_kept Sample.trusted (fun _ => 0) _ (run_final _ _ _)).1 (by decide +kernel),
    by decide +kernel⟩

open Sample in
/-- The fourteenth key finds no room on the board: the first save throws, the second one returns,
and there is no file. -/
theorem not_run_kept :
    let ops : List Op := .create path secret key ::
      ((List.range 14).map fun k => .generate 0 (letter k) key) ++ [.save 0 disk, .save 0 disk]
    let ms := moves (step openssl) ⟨fun _ => none, []⟩ ops
    let t := final (step openssl) ⟨fun _ => none, []⟩ ops
    Run (step openssl) ⟨fun _ => none, []⟩ ms t ∧
      ms.map Move.output = List.replicate 15 (.ok ()) ++
        [.error (.raised .bufferOutOfMemory), .ok ()] ∧
      t.files path = none ∧ ¬∀ m ∈ ms, Kept openssl (fun _ => 0) m := by
  intro ops ms t
  have hrun : Run (step openssl) ⟨fun _ => none, []⟩ ms t := run_final _ _ _
  have hroom : ¬∀ m ∈ ms, Passes m.before m.input := by decide +kernel
  refine ⟨hrun, by decide +kernel, by decide +kernel, fun hkept => hroom fun m hm => ?_⟩
  exact passes_of_kept (hrun.step_of_mem hm) (hkept m hm)

end Suil.Saw
