import LinuxKernelProg.Lib.CString
import LinuxKernelProg.Lib.Sscanf
import LinuxKernelProg.Lib.Strtok
import LinuxKernelProg.Lib.Text

/-!
# What is shown of a key

`key_ops.c` and `keyctl.c` ask for the description of a key, `type;uid;gid;perm;description`, put a
NUL behind as many bytes as `keyctl_describe` says there are, and print the text or its fields. The
number counts the NUL of the description, and it may be more than the buffer has.
-/

namespace LinuxKernelProg.Security.Keys

open Lib CBuffer Sscanf

/-! ## The keys -/

/-- What `keyctl_describe` tells of a key. -/
structure Key where
  type : CString
  uid : BitVec 32
  gid : BitVec 32
  perm : BitVec 32
  description : CString

def semicolon : UInt8 := 59

namespace Key

variable (k : Key)

def uid_text : List UInt8 := decInt k.uid.toInt
def gid_text : List UInt8 := decInt k.gid.toInt
def perm_text : List UInt8 := padLeft 48 8 (hex k.perm.toNat)

/-- `"%s;%d;%d;%08x;%s"` -/
def text : List UInt8 :=
  k.type.bytes ++ semicolon :: (k.uid_text ++ semicolon :: (k.gid_text ++ semicolon ::
    (k.perm_text ++ semicolon :: k.description.bytes)))

end Key

/-- What `keyctl_describe` returns, and the buffer afterwards: the size of the text with its NUL,
also where that is more than `buflen` and nothing is copied. -/
def keyctl_describe (k : Option Key) (buffer : List UInt8) (buflen : Nat) : Int × List UInt8 :=
  match k with
  | none => (-1, buffer)
  | some k =>
    let size := k.text.length + 1
    (size, if size ≤ buflen then k.text ++ 0 :: buffer.drop size else buffer)

/-! ## The programs -/

/-- What `show_key_info` prints behind the text, if there are five tokens. -/
def printFields : List (Option (List UInt8)) → List (List UInt8)
  | [some type, some uid, some gid, some perm, some desc] =>
    [str "  Type: " ++ type, str "  Owner UID: " ++ uid, str "  Owner GID: " ++ gid,
      str "  Permissions: " ++ perm ++ str " (hex)", str "  Description: " ++ desc, []]
  | _ => [[]]

/-- `show_key_info` of `key_ops.c`: the lines it prints, `none` where it is outside of `buffer`. -/
def show_key_info (key : BitVec 32) (k : Option Key) (buffer : List UInt8) :
    Option (List (List UInt8)) := do
  let head := str "Key ID " ++ decInt key.toInt ++ str " information:"
  let (ret, buffer) := keyctl_describe k buffer (4096 - 1)
  if ret < 0 then return [head]
  let buffer ← store buffer ret.toNat 0
  let text ← string buffer 0
  let (buffer, pointers) ← strtoks semicolon 5 buffer 0
  let fields ← pointers.mapM fun pointer =>
    pointer.mapM (string buffer)  -- what `%s` is for each of them
  return head :: (str "  Description: " ++ text) :: printFields fields

/-- What is to be shown of a key. -/
def Key.info (key : BitVec 32) (k : Key) : List (List UInt8) :=
  (str "Key ID " ++ decInt key.toInt ++ str " information:") :: (str "  Description: " ++ k.text) ::
    printFields ([k.type.bytes, k.uid_text, k.gid_text, k.perm_text, k.description.bytes].map some)

/-- A field that a search for semicolons finds again. -/
def IsField (t : List UInt8) : Prop := t ≠ [] ∧ semicolon ∉ t

instance (t : List UInt8) : Decidable (IsField t) :=
  inferInstanceAs (Decidable (t ≠ [] ∧ semicolon ∉ t))

/-- What `keyctl_read` returns for a keyring, and the array afterwards. -/
def keyctl_read (ids : List (BitVec 32)) (keys : List (BitVec 32)) : Nat × List (BitVec 32) :=
  (ids.length * 4, if ids.length ≤ keys.length then ids ++ keys.drop ids.length else keys)

def contentsLine (i : Nat) (key : BitVec 32) (text : List UInt8) : List UInt8 :=
  str "    [" ++ dec (i + 1) ++ str "] ID:" ++ decInt key.toInt ++ str " - " ++ text

/-- The loop of `show_keyring_contents` in `keyctl.c`, with `n` rounds to go; `answer` is what
`keyctl_describe` finds in each round. -/
def contents (answer : Nat → Option Key) (keys : List (BitVec 32)) : Nat → Nat → List UInt8 →
    Option (List (List UInt8))
  | 0, _, _ => some []
  | n + 1, i, desc => do
    let key ← keys[i]?
    let (ret, desc) := keyctl_describe (answer i) desc 256
    if ret > 0 then
      let desc ← store desc ret.toNat 0
      let text ← string desc 0
      let lines ← contents answer keys n (i + 1) desc
      return contentsLine i key text :: lines
    else contents answer keys n (i + 1) desc

/-- `show_keyring_contents` where the keyring can be read. -/
def show_keyring_contents (name : CString) (keyring : BitVec 32) (ids : List (BitVec 32))
    (answer : Nat → Option Key) (keys : List (BitVec 32)) (desc : List UInt8) :
    Option (List (List UInt8)) := do
  let head := str "Contents of " ++ name.bytes ++ str " keyring (ID: " ++
    decInt keyring.toInt ++ str "):"
  let (ret, keys) := keyctl_read ids keys
  let count := ret / 4
  let total := str "  Total keys: " ++ dec count
  let lines ← contents answer keys count 0 desc
  return head :: total :: lines ++ [[]]

variable {k : Key} {t u v buffer : List UInt8}

/-! ## The fields -/

theorem isField_decInt (z : Int) : IsField (decInt z) := by
  refine ⟨fun hnil => ?_, fun h => absurd (decInt_subset z h) (by decide)⟩
  rw [decInt] at hnil
  split at hnil
  · exact dec_ne_nil _ (List.append_eq_nil_iff.1 hnil).2
  · exact dec_ne_nil _ hnil

theorem isField_perm (k : Key) : IsField k.perm_text := by
  have hsubset : k.perm_text ⊆ str "0123456789abcdef" :=
    padLeft_subset (by decide) (hex_subset k.perm.toNat)
  refine ⟨fun hnil => ?_, fun h => absurd (hsubset h) (by decide)⟩
  have hlen : k.perm_text.length = max 8 (hex k.perm.toNat).length := length_padLeft
  rw [hnil, List.length_nil] at hlen
  omega

theorem Key.text_nul_free (k : Key) : 0 ∉ k.text := by
  have huid : 0 ∉ k.uid_text := fun h => absurd (decInt_subset _ h) (by decide)
  have hgid : 0 ∉ k.gid_text := fun h => absurd (decInt_subset _ h) (by decide)
  have hperm : 0 ∉ k.perm_text := fun h =>
    absurd (padLeft_subset (u := str "0123456789abcdef") (by decide) (hex_subset _) h) (by decide)
  have hne : (0 : UInt8) ≠ semicolon := by decide
  simp [Key.text, huid, hgid, hperm, hne, k.type.nul_free, k.description.nul_free]

theorem tokens_field (ht : IsField t) : tokens semicolon t = [t] := by
  rw [tokens_last ht.2]
  simp [ht.1]

theorem tokens_field_cons (ht : IsField t) :
    tokens semicolon (t ++ semicolon :: v) = t :: tokens semicolon v := by
  rw [tokens_cons ht.2]
  simp [ht.1]

/-- The text is taken apart again exactly when type and description are fields. -/
theorem firstTokens_text_iff (k : Key) :
    firstTokens semicolon k.text 5 =
        [k.type.bytes, k.uid_text, k.gid_text, k.perm_text, k.description.bytes].map some ↔
      IsField k.type.bytes ∧ IsField k.description.bytes := by
  constructor
  · intro h
    have hget : ∀ {i t}, (tokens semicolon k.text)[i]? = some t → IsField t := fun hi =>
      of_mem_tokens (List.mem_of_getElem? hi)
    have hall := congrArg (·[0]?) h
    have hlast := congrArg (·[4]?) h
    exact ⟨hget (Option.some.inj hall), hget (Option.some.inj hlast)⟩
  · rintro ⟨htype, hdesc⟩
    have htokens : tokens semicolon k.text =
        [k.type.bytes, k.uid_text, k.gid_text, k.perm_text, k.description.bytes] := by
      have huid : IsField k.uid_text := isField_decInt _
      have hgid : IsField k.gid_text := isField_decInt _
      rw [Key.text, tokens_field_cons htype, tokens_field_cons huid, tokens_field_cons hgid,
        tokens_field_cons (isField_perm k), tokens_field hdesc]
    rw [firstTokens, htokens]
    rfl

/-! ## One key -/

theorem length_describe {buflen : Nat} (k : Key) (hle : buflen ≤ buffer.length) :
    (keyctl_describe (some k) buffer buflen).2.length = buffer.length := by
  unfold keyctl_describe
  dsimp only
  split
  · next hfits =>
    rw [List.length_append, List.length_cons, List.length_drop]
    omega
  · rfl

/-- The NUL behind the text is in the buffer, and changes nothing. -/
theorem store_of_fits (buffer : List UInt8) (k : Key) (buflen : Nat)
    (hfits : k.text.length + 1 ≤ buflen) (hlt : k.text.length + 1 < buffer.length)
    (hle : buflen ≤ buffer.length) : ∃ buffer',
      store (keyctl_describe (some k) buffer buflen).2 (k.text.length + 1) 0 = some buffer' ∧
        buffer'.length = buffer.length ∧ Holds buffer' 0 k.text := by
  have hlen := length_describe k hle
  have hbuf : (keyctl_describe (some k) buffer buflen).2 = k.text ++
      0 :: buffer.drop (k.text.length + 1) :=
    if_pos hfits
  refine ⟨_, if_pos (hlen ▸ hlt), by rw [List.length_set, hlen], ?_⟩
  have hholds : Holds (keyctl_describe (some k) buffer buflen).2 0 k.text :=
    hbuf ▸ Holds.mk_append k.text_nul_free _
  exact hholds.of_take_eq (List.take_set_of_le (by omega))

theorem store_of_large (buffer : List UInt8) (k : Key) (buflen : Nat)
    (hlarge : buffer.length ≤ k.text.length + 1) (hle : buflen ≤ buffer.length) :
    store (keyctl_describe (some k) buffer buflen).2 (k.text.length + 1) 0 = none :=
  if_neg (by rw [length_describe k hle]; omega)

theorem mapM_string {pointers : List (Option Nat)} {ts : List (Option (List UInt8))}
    (h : pointers.map (Option.map (string buffer)) = ts.map (Option.map some)) :
    (pointers.mapM fun pointer => pointer.mapM (string buffer)) = some ts := by
  induction pointers generalizing ts with
  | nil =>
    rw [List.map_eq_nil_iff.1 h.symm]
    rfl
  | cons pointer pointers ih =>
    obtain ⟨t, ts, rfl, ht, hts⟩ := List.map_eq_cons_iff.1 h.symm
    have hone : pointer.mapM (string buffer) = some t := by
      cases t with
      | none =>
        rw [Option.map_eq_none_iff.1 ht.symm]
        rfl
      | some t =>
        obtain ⟨q, rfl, hq⟩ := Option.map_eq_some_iff.1 ht.symm
        rw [Option.mapM_some, hq]
        rfl
    rw [List.mapM_cons, hone, ih hts.symm]
    rfl

theorem printFields_iff {ts : List (Option (List UInt8))} {a b c d e : List UInt8} :
    printFields ts = printFields [some a, some b, some c, some d, some e] ↔
      ts = [some a, some b, some c, some d, some e] := by
  constructor
  · intro h
    unfold printFields at h
    split at h
    · simpa using h
    · simp at h
  · rintro rfl
    rfl

/-- `key_ops.c` stays inside of its buffer exactly where text and NUL are fewer than its bytes, and
then it shows the fields as they are exactly where neither type nor description is empty or has a
semicolon. -/
theorem show_key_info_iff (key : BitVec 32) (k : Key) (hbuffer : buffer.length = 4096) :
    (show_key_info key (some k) buffer = none ↔ 4095 ≤ k.text.length) ∧
      (show_key_info key (some k) buffer = some (k.info key) ↔
        k.text.length < 4095 ∧ IsField k.type.bytes ∧ IsField k.description.bytes) := by
  have hret : ¬ ((k.text.length + 1 : Nat) : Int) < 0 := Int.not_lt.2 (Int.natCast_nonneg _)
  have hpair : keyctl_describe (some k) buffer (4096 - 1) =
      (((k.text.length + 1 : Nat) : Int), (keyctl_describe (some k) buffer (4096 - 1)).2) := rfl
  by_cases hlen : k.text.length < 4095
  · obtain ⟨buffer', hstore, -, hholds⟩ :=
      store_of_fits buffer k (4096 - 1) (by omega) (by omega) (by omega)
    obtain ⟨cut, pointers, hcut, -, hstrings⟩ := strtoks_eq (by decide : semicolon ≠ 0) hholds 5
    have hshown : show_key_info key (some k) buffer =
        some ((str "Key ID " ++ decInt key.toInt ++ str " information:") ::
          (str "  Description: " ++ k.text) :: printFields (firstTokens semicolon k.text 5)) := by
      rw [show_key_info, hpair]
      simp only [if_neg hret, Int.toNat_natCast, hstore, hholds.string_eq, hcut,
        mapM_string hstrings, Option.bind_eq_bind, Option.bind_some]
      rfl
    rw [hshown, ← firstTokens_text_iff k]
    refine ⟨⟨nofun, fun hle => absurd hlen (Nat.not_lt.2 hle)⟩, ?_⟩
    rw [Option.some.injEq, Key.info, List.cons.injEq, List.cons.injEq]
    constructor
    · rintro ⟨-, -, h⟩
      exact ⟨hlen, printFields_iff.1 h⟩
    · rintro ⟨-, h⟩
      exact ⟨rfl, rfl, printFields_iff.2 h⟩
  · have hstore := store_of_large buffer k (4096 - 1) (by omega) (by omega)
    have hnone : show_key_info key (some k) buffer = none := by
      rw [show_key_info, hpair]
      simp only [if_neg hret, Int.toNat_natCast, hstore, Option.bind_eq_bind, Option.bind_none]
    rw [hnone]
    exact ⟨⟨fun _ => Nat.le_of_not_lt hlen, fun _ => rfl⟩, ⟨nofun, fun h => absurd h.1 hlen⟩⟩

/-- A key whose description has a semicolon. -/
theorem show_key_info_semicolon :
    let k : Key := ⟨⟨str "user", by decide⟩, 1000, 1000, 0x3f010000, ⟨str "a;b", by decide⟩⟩
    show_key_info 7 (some k) (List.replicate 4096 0) ≠ some (k.info 7) := by
  intro k h
  have hfields := ((show_key_info_iff 7 k List.length_replicate).2.1 h).2
  exact absurd hfields.2 (by decide)

/-! ## The keys of a keyring -/

/-- What is to be shown of the keys `ids`, the first of which has the number `i`. -/
def described (answer : Nat → Option Key) : Nat → List (BitVec 32) → List (List UInt8)
  | _, [] => []
  | i, key :: ids =>
    ((answer i).toList.map fun k => contentsLine i key k.text) ++ described answer (i + 1) ids

/-- No description of the keys from `i` on that is as long as `desc` without its last byte. -/
def Fit (answer : Nat → Option Key) (i n : Nat) : Prop :=
  ∀ j k, i ≤ j → j < i + n → answer j = some k → k.text.length < 255

variable {answer : Nat → Option Key} {keys ids : List (BitVec 32)} {desc : List UInt8} {i n : Nat}

theorem Fit.succ_iff : Fit answer i (n + 1) ↔
    (∀ k, answer i = some k → k.text.length < 255) ∧ Fit answer (i + 1) n := by
  constructor
  · intro h
    exact ⟨fun k => h i k (Nat.le_refl _) (by omega), fun j k hi hj => h j k (by omega) (by omega)⟩
  · rintro ⟨hfirst, hrest⟩ j k hi hj hk
    rcases Nat.eq_or_lt_of_le hi with rfl | hlt
    · exact hfirst k hk
    · exact hrest j k hlt (by omega) hk

/-- A round of the loop for a key that is described: the line is right, or `desc` is too short. -/
theorem contents_described {key : BitVec 32} {k : Key} (hkey : keys[i]? = some key)
    (hdesc : desc.length = 256) (hk : answer i = some k) :
    (k.text.length < 255 → ∃ desc', desc'.length = 256 ∧ contents answer keys (n + 1) i desc =
      (contents answer keys n (i + 1) desc').map (contentsLine i key k.text :: ·)) ∧
    (¬ k.text.length < 255 → contents answer keys (n + 1) i desc = none) := by
  have hret : ((k.text.length + 1 : Nat) : Int) > 0 := by omega
  have hpair : keyctl_describe (answer i) desc 256 =
      (((k.text.length + 1 : Nat) : Int), (keyctl_describe (some k) desc 256).2) := by
    rw [hk]
    rfl
  constructor
  · intro hlt
    obtain ⟨desc', hstore, hlen, hholds⟩ :=
      store_of_fits desc k 256 (by omega) (by omega) (by omega)
    refine ⟨desc', hlen.trans hdesc, ?_⟩
    rw [contents, hkey, hpair]
    simp only [if_pos hret, Int.toNat_natCast, hstore, hholds.string_eq,
      Option.bind_eq_bind, Option.bind_some]
    cases contents answer keys n (i + 1) desc' <;> rfl
  · intro hlarge
    have hstore := store_of_large desc k 256 (by omega) (by omega)
    rw [contents, hkey, hpair]
    simp only [if_pos hret, Int.toNat_natCast, hstore, Option.bind_eq_bind,
      Option.bind_some, Option.bind_none]

theorem contents_refused {key : BitVec 32} (hkey : keys[i]? = some key) (hk : answer i = none) :
    contents answer keys (n + 1) i desc = contents answer keys n (i + 1) desc := by
  rw [contents, hkey, hk]
  rfl

theorem contents_eq (before ids behind : List (BitVec 32)) (hdesc : desc.length = 256) :
    let keys := before ++ (ids ++ behind)
    (Fit answer before.length ids.length →
      contents answer keys ids.length before.length desc =
        some (described answer before.length ids)) ∧
    (¬ Fit answer before.length ids.length →
      contents answer keys ids.length before.length desc = none) := by
  induction ids generalizing before desc with
  | nil => exact ⟨fun _ => rfl, fun h => absurd (fun j k hi hj => absurd hi (by simpa using hj)) h⟩
  | cons key ids ih =>
    intro keys
    have hkey : keys[before.length]? = some key := by
      rw [List.getElem?_append_right (Nat.le_refl _), Nat.sub_self]
      rfl
    have hkeys : keys = (before ++ [key]) ++ (ids ++ behind) := by simp [keys]
    have hlen : (before ++ [key]).length = before.length + 1 := by simp
    rw [List.length_cons, Fit.succ_iff]
    cases hk : answer before.length with
    | none =>
      rw [contents_refused hkey hk, hkeys, ← hlen, described, hk]
      obtain ⟨hfit, hunfit⟩ := ih (before ++ [key]) hdesc
      refine ⟨fun h => ?_, fun h => hunfit fun hrest => h ⟨nofun, hrest⟩⟩
      rw [hfit h.2, hlen]
      rfl
    | some k =>
      obtain ⟨hline, hnone⟩ := contents_described (n := ids.length) hkey hdesc hk
      by_cases hlt : k.text.length < 255
      · obtain ⟨desc', hdesc', heq⟩ := hline hlt
        obtain ⟨hfit, hunfit⟩ := ih (before ++ [key]) hdesc'
        rw [heq, hkeys, ← hlen, described, hk]
        constructor
        · rintro ⟨-, hrest⟩
          rw [hfit hrest, hlen]
          rfl
        · intro h
          rw [hunfit fun hrest => h ⟨fun k' hk' => Option.some.inj hk' ▸ hlt, hrest⟩]
          rfl
      · exact ⟨fun h => absurd (h.1 k rfl) hlt, fun _ => hnone hlt⟩

/-- The loop does not end well where it is to go beyond the array. -/
theorem contents_beyond (hi : i ≤ keys.length) (hn : keys.length < i + n) :
    contents answer keys n i desc = none := by
  induction n generalizing i desc with
  | zero => omega
  | succ n ih =>
    rw [contents]
    cases hkey : keys[i]? with
    | none => rfl
    | some key =>
      have hlt : i < keys.length := (List.getElem?_eq_some_iff.1 hkey).1
      have hrest : ∀ desc, contents answer keys n (i + 1) desc = none :=
        fun desc => ih hlt (by omega)
      simp only [hrest, Option.bind_eq_bind, Option.bind_none, Option.bind_fun_none, ite_self]

/-- The keyring has no more keys than the array, and no description is too long. -/
def Inside (answer : Nat → Option Key) (ids : List (BitVec 32)) : Prop :=
  ids.length ≤ 4096 ∧ Fit answer 0 ids.length

/-- What is to be shown of a keyring. -/
def keyringLines (name : CString) (keyring : BitVec 32) (ids : List (BitVec 32))
    (answer : Nat → Option Key) :
    List (List UInt8) :=
  (str "Contents of " ++ name.bytes ++ str " keyring (ID: " ++ decInt keyring.toInt ++ str "):") ::
    (str "  Total keys: " ++ dec ids.length) :: described answer 0 ids ++ [[]]

/-- `keyctl.c` shows a keyring as it is exactly where it has at most 4096 keys and no key that can
be described has a text of 255 bytes or more; everywhere else it is outside of one of its arrays. -/
theorem show_keyring_contents_iff (name : CString) (keyring : BitVec 32) (ids : List (BitVec 32))
    (answer : Nat → Option Key) (hkeys : keys.length = 4096) (hdesc : desc.length = 256) :
    (show_keyring_contents name keyring ids answer keys desc = none ↔ ¬ Inside answer ids) ∧
      (show_keyring_contents name keyring ids answer keys desc =
        some (keyringLines name keyring ids answer) ↔
        Inside answer ids) := by
  have hcount : ids.length * 4 / 4 = ids.length := Nat.mul_div_cancel _ (by decide)
  have hresult : (Inside answer ids → show_keyring_contents name keyring ids answer keys desc =
        some (keyringLines name keyring ids answer)) ∧
      (¬ Inside answer ids → show_keyring_contents name keyring ids answer keys desc = none) := by
    unfold show_keyring_contents
    simp only [keyctl_read, hcount, hkeys]
    by_cases hlen : ids.length ≤ 4096
    · have hfit : Fit answer 0 ids.length →
          contents answer (ids ++ keys.drop ids.length) ids.length 0 desc =
            some (described answer 0 ids) := (contents_eq [] ids _ hdesc).1
      have hunfit : ¬ Fit answer 0 ids.length →
          contents answer (ids ++ keys.drop ids.length) ids.length 0 desc = none :=
            (contents_eq [] ids _ hdesc).2
      rw [if_pos hlen]
      constructor
      · intro h
        rw [hfit h.2]
        rfl
      · intro h
        rw [hunfit fun hfit => h ⟨hlen, hfit⟩]
        rfl
    · rw [if_neg hlen, contents_beyond (Nat.zero_le _) (by omega)]
      exact ⟨fun h => absurd h.1 hlen, fun _ => rfl⟩
  obtain ⟨hsome, hnone⟩ := hresult
  refine ⟨⟨fun h hinside => ?_, hnone⟩, ⟨fun h => ?_, hsome⟩⟩
  · nomatch h.symm.trans (hsome hinside)
  · by_contra hout
    nomatch (hnone hout).symm.trans h

/-- A keyring with one key, whose description has 255 bytes. -/
theorem show_keyring_contents_long :
    let k : Key := ⟨⟨str "user", by decide⟩, 0, 0, 0x3f010000,
      ⟨List.replicate 255 97, fun h => nomatch List.eq_of_mem_replicate h⟩⟩
    show_keyring_contents ⟨str "session", by decide⟩ 1 [7] (fun _ => some k) (List.replicate 4096 0)
      (List.replicate 256 0) = none := by
  intro k
  refine (show_keyring_contents_iff _ 1 [7] _ List.length_replicate List.length_replicate).1.2
    fun h => ?_
  have hlt : k.text.length < 255 := h.2 0 k (Nat.le_refl _) (by decide) rfl
  have hlen : k.description.bytes.length ≤ k.text.length := by
    simp only [Key.text, List.length_append, List.length_cons]
    omega
  have hdesc : k.description.bytes.length = 255 := List.length_replicate
  omega

end LinuxKernelProg.Security.Keys
