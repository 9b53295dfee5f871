import CertPath.Proofs.SizeLimit
import CertPath.Proofs.Utf8Text
import Mathlib.Data.Set.NAry

namespace CertPath

namespace Percent

variable {a b : UInt8} {r : Bytes}

def FeedEscape (b : Bytes) : Prop := [37, 48, 97] <:+: b ∨ [37, 48, 65] <:+: b

theorem feedEscape_cons :
    FeedEscape (a :: r) ↔ ([37, 48, 97] <+: a :: r ∨ [37, 48, 65] <+: a :: r) ∨ FeedEscape r := by
  rw [FeedEscape, List.infix_cons_iff, List.infix_cons_iff]
  exact or_or_or_comm

theorem feedEscape_of_ne (h : a ≠ 37) : FeedEscape (a :: r) ↔ FeedEscape r := by
  simp [feedEscape_cons, List.cons_prefix_cons, h.symm]

theorem feedEscape_percent :
    FeedEscape (37 :: a :: b :: r) ↔ a = 48 ∧ (b = 97 ∨ b = 65) ∨ FeedEscape (a :: b :: r) := by
  have hpre : ∀ y : UInt8, [37, 48, y] <+: 37 :: a :: b :: r ↔ a = 48 ∧ b = y := by
    intro y
    simp [List.cons_prefix_cons, eq_comm]
  rw [feedEscape_cons, hpre, hpre, ← and_or_left]

theorem ne_percent_of_hexValue {h : Nat} (ha : hexValue a = some h) : a ≠ 37 := by
  rintro rfl
  cases ha

theorem ne_feed_of_hexValue {h : Nat} (ha : hexValue a = some h) : a ≠ 10 := by
  rintro rfl
  cases ha

theorem feed_eq_ofNat_iff {h l : Nat} (ha : hexValue a = some h) (hb : hexValue b = some l) :
    10 = UInt8.ofNat (16 * h + l) ↔ a = 48 ∧ (b = 97 ∨ b = 65) := by
  simp only [← UInt8.toNat_inj, UInt8.toNat_ofNat']
  simp only [hexValue] at ha hb
  grind

theorem feed_mem_decodeBytes (s : Bytes) : 10 ∈ decodeBytes s ↔ 10 ∈ s ∨ FeedEscape s := by
  fun_induction decodeBytes s with
  | case1 a b r h l hl hh ih =>
    rw [feedEscape_percent, feedEscape_of_ne (ne_percent_of_hexValue hh),
      feedEscape_of_ne (ne_percent_of_hexValue hl), List.mem_cons, feed_eq_ofNat_iff hh hl, ih]
    simp [(ne_feed_of_hexValue hh).symm, (ne_feed_of_hexValue hl).symm, or_left_comm]
  | case2 a b r hx ih =>
    have hne : ¬ (a = 48 ∧ (b = 97 ∨ b = 65)) := by
      rintro ⟨rfl, rfl | rfl⟩ <;> exact hx 0 10 rfl rfl
    rw [feedEscape_percent, or_iff_right hne, List.mem_cons, List.mem_cons, ih]
    simp
  | case3 a r hx ih =>
    rw [List.mem_cons, List.mem_cons, ih]
    by_cases ha : a = 37
    · subst ha
      have hshort : ∀ y : UInt8, ¬ [37, 48, y] <+: 37 :: r := by
        rintro y ⟨t, ht⟩
        exact hx 48 y t rfl (by simpa using ht.symm)
      simp [feedEscape_cons, hshort]
    · rw [feedEscape_of_ne ha, or_assoc]
  | case4 => simp [FeedEscape]

def Printable (s : List Char) : Prop := ∀ c ∈ s, 0x20 ≤ c.toNat ∧ c.toNat < 0x7F

theorem printable_upperPair (x : UInt8) : Printable (Bytes.upperPair x) := by
  have hdigit : ∀ n, n < 16 → 0x20 ≤ (Bytes.hexDigit 65 n).toNat ∧
      (Bytes.hexDigit 65 n).toNat < 0x7F := by decide
  have hx : x.toNat < 256 := x.toNat_lt
  intro c hc
  rcases List.mem_pair.1 hc with rfl | rfl
  · exact hdigit _ (by omega)
  · exact hdigit _ (by omega)

theorem printable_encode (set s : List Char) : Printable (encode set s) := by
  intro c hc
  obtain ⟨x, -, hc⟩ := List.mem_flatMap.1 hc
  split at hc
  · obtain ⟨y, -, hc⟩ := List.mem_flatMap.1 hc
    rcases List.mem_cons.1 hc with rfl | hc
    · decide
    · exact printable_upperPair y c hc
  · rename_i hx
    obtain rfl := List.mem_singleton.1 hc
    simp at hx
    omega

def WritesFeed (s : List Char) : Prop := ['%', '0', 'a'] <:+: s ∨ ['%', '0', 'A'] <:+: s

instance (s : List Char) : Decidable (WritesFeed s) := inferInstanceAs (Decidable (_ ∨ _))

section Decode

variable {s : List Char}

theorem Printable.ascii (h : Printable s) : ∀ c ∈ s, c.toNat < 128 :=
  fun c hc ↦ Nat.lt_trans (h c hc).2 (by decide)

theorem infix_encode_iff {t : List Char} (ht : ∀ c ∈ t, c.toNat < 128)
    (hs : ∀ c ∈ s, c.toNat < 128) : Utf8.encode t <:+: Utf8.encode s ↔ t <:+: s := by
  rw [Utf8.encode_of_ascii hs]
  constructor
  · intro hi
    obtain ⟨l, hl, he⟩ := List.infix_map_iff.1 hi
    have hascii : ∀ c ∈ l, c.toNat < 128 := fun c hc ↦ hs c (hl.mem hc)
    rw [← Utf8.encode_of_ascii hascii] at he
    have hdecode := congrArg Utf8.decode he
    rw [Utf8.decode_encode_of_ascii ht, Utf8.decode_encode_of_ascii hascii] at hdecode
    exact Option.some.inj hdecode ▸ hl
  · intro hi
    rw [Utf8.encode_of_ascii ht]
    exact hi.map _

theorem feed_mem_decode (h : Printable s) : '\n' ∈ decode s ↔ WritesFeed s := by
  have hs : 10 ∉ Utf8.encode s := Utf8.feed_not_mem_encode fun c hc ↦
    ⟨h.ascii c hc, fun he ↦ absurd (h c hc).1 (he ▸ by decide)⟩
  rw [decode, Utf8.feed_mem_decodeLossy, octets, feed_mem_decodeBytes, or_iff_right hs, WritesFeed,
    ← infix_encode_iff (by simp) h.ascii, ← infix_encode_iff (by simp) h.ascii]
  rfl

end Decode

end Percent

namespace Net

namespace Ftp

/-- The lines that a command makes on the wire. -/
def commandLines (command : List Char) : List Line := lines (command ++ ['\r', '\n'])

theorem length_lines (s : List Char) : (lines s).length = s.count '\n' := by
  rw [lines, List.length_dropLast]
  refine Nat.sub_eq_of_eq_add ?_
  induction s with
  | nil => rfl
  | cons c s ih =>
    rw [List.foldr_cons, List.count_cons]
    split
    · rename_i hc
      simp [ih, hc]
    · rename_i hc
      have hcount : (if c == '\n' then 1 else 0) = 0 := if_neg (by simpa using hc)
      rw [hcount, Nat.add_zero, ← ih]
      split
      · rename_i hnil
        rw [hnil] at ih
        cases ih
      · rename_i hl
        rw [hl]
        rfl

theorem lines_feed {s : List Char} (h : '\n' ∉ s) : lines (s ++ ['\n']) = [s] := by
  have hlines : lines (s ++ ['\n']) = [s, []].dropLast := by
    unfold lines
    congr 1
    induction s with
    | nil => rfl
    | cons c s ih =>
      rw [List.mem_cons, not_or] at h
      rw [List.cons_append, List.foldr_cons, ih h.2, if_neg (Ne.symm h.1)]
  exact hlines

theorem commandLines_of_not_mem {c : List Char} (h : '\n' ∉ c) :
    commandLines c = [c ++ ['\r']] := by
  have hc : c ++ ['\r', '\n'] = (c ++ ['\r']) ++ ['\n'] := by simp
  rw [commandLines, hc, lines_feed (by simpa using h)]

theorem length_commandLines (c : List Char) : (commandLines c).length = c.count '\n' + 1 := by
  simp [commandLines, length_lines]

theorem length_flatMap_commandLines (cs : List (List Char)) :
    (cs.flatMap commandLines).length = cs.length + cs.flatten.count '\n' := by
  induction cs with
  | nil => rfl
  | cons c cs ih =>
    rw [List.flatMap_cons, List.length_append, ih, length_commandLines, List.flatten_cons,
      List.count_append, List.length_cons]
    omega

theorem flatMap_commandLines_eq_iff (cs : List (List Char)) :
    cs.flatMap commandLines = cs.map (· ++ ['\r']) ↔ ∀ c ∈ cs, '\n' ∉ c := by
  constructor
  · intro h c hc hm
    have hlength := congrArg List.length h
    rw [length_flatMap_commandLines, List.length_map, Nat.add_eq_left,
      List.count_eq_zero] at hlength
    exact hlength (List.mem_flatten.2 ⟨c, hc, hm⟩)
  · intro h
    rw [List.map_eq_flatMap]
    exact List.flatMap_congr fun c hc ↦ commandLines_of_not_mem (h c hc)

/-- Whatever comes in reply, a session gives one of these series of commands, or breaks off on the
way. -/
def Gives {α : Type} (x : Session α) (series : Set (List (List Char))) : Prop :=
  ∀ d, ∃ cs ∈ series, ∃ said, said <+: cs ∧
    (x.run d).2.sent = d.sent ++ said.flatMap commandLines ∧
    ∀ a, (x.run d).1 = .ok a → said = cs

section Gives

variable {α β : Type} {x : Session α} {k : α → Session β} {p q : Set (List (List Char))}
  {server : Server}

theorem sent_foldl_take (server : Server) (ls : List Line) (d : Dialog) :
    (ls.foldl (Dialog.take server) d).sent = d.sent ++ ls := by
  induction ls generalizing d with
  | nil => simp
  | cons l ls ih =>
    rw [List.foldl_cons, ih]
    simp [Dialog.take]

theorem gives_send (server : Server) (c : List Char) : Gives (send server c) {[c]} := by
  intro d
  refine ⟨[c], rfl, [c], List.prefix_rfl, ?_, fun _ _ ↦ rfl⟩
  rw [List.flatMap_singleton]
  exact sent_foldl_take server _ d

theorem gives_await (silence : Trouble) (codes : List Nat) : Gives (await silence codes) {[]} := by
  intro d
  refine ⟨[], rfl, [], List.prefix_rfl, ?_, fun _ _ ↦ rfl⟩
  have hget : (get : Session Dialog).run d = (.ok d, d) := rfl
  rw [List.flatMap_nil, List.append_nil, await, run_bind_of_ok hget]
  split
  · rfl
  · rfl
  · split <;> rfl

theorem gives_pure (a : α) : Gives (pure a) {[]} :=
  fun _ ↦ ⟨[], rfl, [], List.prefix_rfl, (List.append_nil _).symm, fun _ _ ↦ rfl⟩

theorem gives_get : Gives (get : Session Dialog) {[]} :=
  fun _ ↦ ⟨[], rfl, [], List.prefix_rfl, (List.append_nil _).symm, fun _ _ ↦ rfl⟩

theorem gives_throw (e : Trouble) (h : p.Nonempty) : Gives (throw e : Session α) p := by
  obtain ⟨cs, hcs⟩ := h
  exact fun _ ↦ ⟨cs, hcs, [], List.nil_prefix, (List.append_nil _).symm, nofun⟩

theorem Gives.bind (hx : Gives x p) (hk : ∀ a, Gives (k a) q) (hq : q.Nonempty) :
    Gives (x >>= k) (Set.image2 (· ++ ·) p q) := by
  intro d
  obtain ⟨cs, hcs, said, hsaid, hsent, hall⟩ := hx d
  rcases hr : x.run d with ⟨e | a, d₁⟩
  · obtain ⟨ds, hds⟩ := hq
    refine ⟨cs ++ ds, Set.mem_image2_of_mem hcs hds, said,
      List.prefix_append_of_prefix hsaid, ?_, ?_⟩
    · rw [run_bind_of_error hr, ← hsent, hr]
    · rw [run_bind_of_error hr]
      nofun
  · rw [hr] at hsent hall
    obtain rfl := hall a rfl
    obtain ⟨ds, hds, more, hmore, hsent', hall'⟩ := hk a d₁
    refine ⟨said ++ ds, Set.mem_image2_of_mem hcs hds, said ++ more,
      (List.prefix_append_right_inj said).2 hmore, ?_, ?_⟩
    · rw [run_bind_of_ok hr, hsent', hsent, List.flatMap_append, List.append_assoc]
    · intro b hb
      rw [run_bind_of_ok hr] at hb
      rw [hall' b hb]

theorem Gives.singleton_bind {cs ds : List (List Char)} (hx : Gives x {cs})
    (hk : ∀ a, Gives (k a) {ds}) : Gives (x >>= k) {cs ++ ds} := by
  simpa using hx.bind hk (Set.singleton_nonempty ds)

theorem Gives.unless {c : Prop} [Decidable c] {cs : List (List Char)} (e : Trouble)
    (hx : Gives x {cs}) : Gives (if c then throw e >>= fun _ : Unit ↦ x else x) {cs} := by
  split
  · exact (gives_throw e (Set.singleton_nonempty [])).singleton_bind fun _ ↦ hx
  · exact hx

theorem Gives.of_subset (hx : Gives x p) (h : p ⊆ q) : Gives x q := by
  intro d
  obtain ⟨cs, hcs, hsaid⟩ := hx d
  exact ⟨cs, h hcs, hsaid⟩

end Gives

/-- What is to be said to fetch a file. The password is given only where it is asked for. -/
def script (user password path : List Char) (asked : Bool) : List (List Char) :=
  ["USER ".toList ++ user] ++ (if asked then ["PASS ".toList ++ password] else []) ++
    ["TYPE I".toList, "PASV".toList, "RETR ".toList ++ path, "QUIT".toList]

variable (server : Server) (user password path : List Char) (max : UInt64)

theorem length_script_le (asked : Bool) : (script user password path asked).length ≤ 6 := by
  cases asked <;> simp [script]

theorem gives_enter :
    Gives (enter server user password)
      {["USER ".toList ++ user, "PASS ".toList ++ password, "TYPE I".toList],
        ["USER ".toList ++ user, "TYPE I".toList]} := by
  have htype : Gives (send server "TYPE I".toList >>= fun _ ↦ await .timeout [200] >>= fun _ ↦ pure ())
      {["TYPE I".toList]} :=
    (gives_send server _).singleton_bind fun _ ↦
      (gives_await _ _).singleton_bind fun _ ↦ gives_pure ()
  have hpass : Gives (send server ("PASS ".toList ++ password) >>= fun _ ↦ await .timeout [230] >>= fun _ ↦
      send server "TYPE I".toList >>= fun _ ↦ await .timeout [200] >>= fun _ ↦ pure ())
      {["PASS ".toList ++ password, "TYPE I".toList]} :=
    (gives_send server _).singleton_bind fun _ ↦ (gives_await _ _).singleton_bind fun _ ↦ htype
  have hcode : ∀ r : Nat × Bytes, Gives
      (if r.1 = 331 then
          send server ("PASS ".toList ++ password) >>= fun _ ↦ await .timeout [230] >>= fun _ ↦
            send server "TYPE I".toList >>= fun _ ↦ await .timeout [200] >>= fun _ ↦ pure ()
        else send server "TYPE I".toList >>= fun _ ↦ await .timeout [200] >>= fun _ ↦ pure ())
      {["PASS ".toList ++ password, "TYPE I".toList], ["TYPE I".toList]} := by
    intro r
    split
    · exact hpass.of_subset (by simp)
    · exact htype.of_subset (by simp)
  have h := (gives_await .hang [220]).bind (fun _ ↦ (gives_send server ("USER ".toList ++ user)).bind
    (fun _ ↦ (gives_await .timeout [230, 331]).bind hcode (by simp)) (by simp)) (by simp)
  simp only [Set.image2_singleton_left, Set.image_insert_eq, Set.image_singleton, List.nil_append,
    List.singleton_append] at h
  exact h

theorem gives_openFile :
    Gives (openFile server path) {["PASV".toList, "RETR ".toList ++ path]} := by
  unfold openFile
  refine (gives_send server _).singleton_bind fun _ ↦
    ((gives_await .timeout [227]).singleton_bind fun r ↦ ?_ :)
  refine Gives.unless _ ((gives_send server _).singleton_bind fun _ ↦
    (gives_get.singleton_bind fun d ↦ ?_ :))
  split
  · exact gives_throw _ (Set.singleton_nonempty _)
  · exact gives_throw _ (Set.singleton_nonempty _)
  · exact (gives_await _ _).singleton_bind fun _ ↦ gives_pure _

theorem gives_readFile (file : Incoming) : Gives (readFile server max file) {["QUIT".toList]} := by
  have hdrain : Gives (ExceptT.mk (pure (drain max file)) : Session Bytes) {[]} :=
    fun _ ↦ ⟨[], rfl, [], List.prefix_rfl, (List.append_nil _).symm, fun _ _ ↦ rfl⟩
  unfold readFile
  exact hdrain.singleton_bind fun _ ↦ (gives_await _ _).singleton_bind fun _ ↦
    (gives_send server _).singleton_bind fun b ↦ gives_pure _

theorem gives_retrieve :
    Gives (retrieve server user password path max) (Set.range (script user password path)) := by
  have h := (gives_enter server user password).bind (fun _ ↦
    (gives_openFile server path).singleton_bind fun file ↦ gives_readFile server max file) (by simp)
  refine h.of_subset ?_
  rintro _ ⟨cs, hcs, ds, rfl, rfl⟩
  rcases hcs with rfl | rfl
  · exact ⟨true, rfl⟩
  · exact ⟨false, rfl⟩

theorem fetch_lines : ∃ asked, ∃ said, said <+: script user password path asked ∧
    (fetch server user password path max).2 = said.flatMap commandLines := by
  obtain ⟨_, ⟨asked, rfl⟩, said, hsaid, hsent, -⟩ :=
    gives_retrieve server user password path max server.start
  exact ⟨asked, said, hsaid, hsent⟩

end Ftp

namespace Url

open Percent

variable {u : Url}

theorem printable_walk {acc ss : List (List Char)} (h : ∀ s ∈ acc, Printable s) :
    ∀ s ∈ walk acc ss, Printable s := by
  have hconcat : ∀ {acc : List (List Char)} {t : List Char}, (∀ s ∈ acc, Printable s) →
      Printable t → ∀ s ∈ acc ++ [t], Printable s := by
    intro acc t hacc ht s hs
    rcases List.mem_append.1 hs with hs | hs
    · exact hacc s hs
    · exact List.mem_singleton.1 hs ▸ ht
  have hback : ∀ {acc : List (List Char)}, (∀ s ∈ acc, Printable s) →
      ∀ s ∈ acc.dropLast, Printable s :=
    fun hacc s hs ↦ hacc s (List.dropLast_subset _ hs)
  have hnil : Printable [] := by simp [Printable]
  fun_induction walk acc ss with
  | case1 => exact h
  | case2 => exact hconcat (hback h) hnil
  | case3 => exact hconcat h hnil
  | case4 => exact hconcat h (printable_encode _ _)
  | case5 acc s t r hs ih => exact ih (hback h)
  | case6 acc s t r hs hd ih => exact ih h
  | case7 acc s t r hs hd ih => exact ih (hconcat h (printable_encode _ _))

theorem printable_pathAndQuery (special : Bool) (s : List Char) :
    ∀ t ∈ (pathAndQuery special [] s).1, Printable t := printable_walk (by simp)

theorem printable_rest (special : Bool) (s : List Char) :
    ∀ t ∈ (rest special s).1, Printable t := by
  have hempty : ∀ t ∈ [([] : List Char)], Printable t := by simp [Printable]
  unfold rest
  split
  · split
    · exact printable_pathAndQuery _ _
    · split
      · nofun
      · exact printable_pathAndQuery _ _
  · split
    · exact hempty
    · nofun

structure IsPrintable (u : Url) : Prop where
  username : Printable u.username
  password : Printable u.password
  path : Printable u.path

theorem printable_path (h : ∀ t ∈ u.segments, Printable t) : Printable u.path := by
  intro c hc
  obtain ⟨t, ht, hc⟩ := List.mem_flatMap.1 hc
  rcases List.mem_cons.1 hc with rfl | hc
  · decide
  · exact h t ht c hc

theorem isPrintable_of_afterSlashes {scheme : String} {s : List Char}
    (h : afterSlashes scheme s = some u) : u.IsPrintable := by
  simp only [afterSlashes, Option.bind_eq_bind, Option.bind_none,
    Option.ite_none_left_eq_some] at h
  obtain ⟨-, h⟩ := h
  split at h <;>
  · simp only [Option.bind_eq_some_iff, Option.ite_none_left_eq_some, Option.some.injEq] at h
    obtain ⟨host, -, -, port, -, rfl⟩ := h
    exact ⟨printable_encode _ _, printable_encode _ _, printable_path (printable_rest _ _)⟩

theorem isPrintable_of_parse {s : String} (h : parse s = some u) : u.IsPrintable := by
  obtain ⟨⟨scheme, r⟩, -, h⟩ := Option.bind_eq_some_iff.1 h
  dsimp only at h
  unfold afterScheme at h
  split at h
  · exact isPrintable_of_afterSlashes h
  · split at h
    · exact isPrintable_of_afterSlashes h
    · obtain rfl := Option.some.inj h
      exact ⟨nofun, nofun, printable_path (printable_rest _ _)⟩

end Url

namespace Fetcher

open Percent

variable {f : Fetcher} {u : Url} {url : String} {c : List Char}

def script (u : Url) (asked : Bool) : List (List Char) :=
  Ftp.script (login u).1 (login u).2 (Percent.decode u.path) asked

def lineSent (l : Ftp.Line) : Sent := .line (String.ofList l)

theorem lineSent_injective : Function.Injective lineSent :=
  fun _ _ h ↦ String.ofList_injective (Sent.line.inj h)

/-- The commands into which the escapes of a URL bring a line feed. -/
inductive Breaks (u : Url) : List Char → Prop
  | user (h : WritesFeed u.username) : Breaks u ("USER ".toList ++ (login u).1)
  | password (hn : u.username ≠ []) (h : WritesFeed u.password) :
    Breaks u ("PASS ".toList ++ (login u).2)
  | path (h : WritesFeed u.path) : Breaks u ("RETR ".toList ++ Percent.decode u.path)

theorem feed_mem_username (hu : u.IsPrintable) : '\n' ∈ (login u).1 ↔ WritesFeed u.username := by
  unfold login
  split
  · rename_i hnil
    rw [hnil]
    decide
  · exact feed_mem_decode hu.username

theorem feed_mem_password (hu : u.IsPrintable) :
    '\n' ∈ (login u).2 ↔ u.username ≠ [] ∧ WritesFeed u.password := by
  unfold login
  split
  · rename_i hnil
    simp [hnil]
  · rename_i hne
    rw [and_iff_right hne]
    exact feed_mem_decode hu.password

theorem Breaks.feed_mem (hu : u.IsPrintable) (h : Breaks u c) : '\n' ∈ c := by
  cases h with
  | user h => exact List.mem_append_right _ ((feed_mem_username hu).2 h)
  | password hn h => exact List.mem_append_right _ ((feed_mem_password hu).2 ⟨hn, h⟩)
  | path h => exact List.mem_append_right _ ((feed_mem_decode hu.path).2 h)

theorem breaks_of_feed_mem (hu : u.IsPrintable) {asked : Bool} (hc : c ∈ script u asked)
    (h : '\n' ∈ c) : Breaks u c := by
  have hargument : ∀ {word argument : List Char}, '\n' ∉ word → '\n' ∈ word ++ argument →
      '\n' ∈ argument := fun hword hm ↦ (List.mem_append.1 hm).resolve_left hword
  rcases List.mem_append.1 hc with hc | hc
  · rcases List.mem_append.1 hc with hc | hc
    · obtain rfl := List.mem_singleton.1 hc
      exact .user ((feed_mem_username hu).1 (hargument (by decide) h))
    · cases asked with
      | false => cases hc
      | true =>
        obtain rfl := List.mem_singleton.1 hc
        obtain ⟨hn, hp⟩ := (feed_mem_password hu).1 (hargument (by decide) h)
        exact .password hn hp
  · simp only [List.mem_cons, List.not_mem_nil, or_false] at hc
    rcases hc with rfl | rfl | rfl | rfl
    · exact absurd h (by decide)
    · exact absurd h (by decide)
    · exact .path ((feed_mem_decode hu.path).1 (hargument (by decide) h))
    · exact absurd h (by decide)

theorem ftpGet_lines (f : Fetcher) (hu : Url.parse url = some u) :
    ∃ asked, ∃ said, said <+: script u asked ∧
      (f.ftpGet url).sent = (said.flatMap Ftp.commandLines).map lineSent := by
  have hsilent : ∃ asked, ∃ said, said <+: script u asked ∧
      ([] : List Sent) = (said.flatMap Ftp.commandLines).map lineSent :=
    ⟨true, [], List.nil_prefix, rfl⟩
  simp only [ftpGet, hu]
  split
  · exact hsilent
  · split
    · exact hsilent
    · rename_i server _
      obtain ⟨asked, said, hsaid, hsent⟩ :=
        Ftp.fetch_lines server (login u).1 (login u).2 (Percent.decode u.path) f.maxSize
      exact ⟨asked, said, hsaid, congrArg (List.map lineSent) hsent⟩
    · exact hsilent

/-- A download says what is to be said in order, as far as it gets. Each command is one line unless
the escapes of the URL bring a line feed into it, and then it is more. -/
theorem fetchBytes_lines (f : Fetcher) {p : DistributionPoint} (hs : p.scheme = .ok .ftp) :
    (Url.parse p.url = none → (f.fetchBytes p).sent = []) ∧
    ∀ u, Url.parse p.url = some u → ∃ asked, ∃ said, said <+: script u asked ∧
      (f.fetchBytes p).sent = (said.flatMap Ftp.commandLines).map lineSent ∧
      ((f.fetchBytes p).sent = said.map (fun c ↦ lineSent (c ++ ['\r'])) ↔
        ∀ c ∈ said, ¬ Breaks u c) := by
  have hget : f.fetchBytes p = f.ftpGet p.url := by rw [fetchBytes, hs]
  rw [hget]
  refine ⟨fun hu ↦ by simp only [ftpGet, hu], fun u hu ↦ ?_⟩
  obtain ⟨asked, said, hsaid, hsent⟩ := ftpGet_lines f hu
  have hp := Url.isPrintable_of_parse hu
  have hfeed : ∀ c ∈ said, '\n' ∈ c ↔ Breaks u c := fun c hc ↦
    ⟨breaks_of_feed_mem hp (hsaid.subset hc), Breaks.feed_mem hp⟩
  have hmap : said.map (fun c ↦ lineSent (c ++ ['\r'])) =
      (said.map (· ++ ['\r'])).map lineSent := by rw [List.map_map]; rfl
  refine ⟨asked, said, hsaid, hsent, ?_⟩
  rw [hsent, hmap, lineSent_injective.list_map.eq_iff, Ftp.flatMap_commandLines_eq_iff]
  exact forall₂_congr fun c hc ↦ not_congr (hfeed c hc)

def sampleUrl : Url where
  scheme := "ftp"
  username := ['u']
  password := "p%250A".toList
  host := ['f']
  port := none
  segments := ["a%0Db".toList]
  query := none

theorem fetchBytes_lines_escapes :
    ∃ asked, ∃ said,
      said <+: Ftp.script ['u'] "p%0A".toList "/a\rb".toList asked ∧
      ((sampleServers 3).fetchBytes ⟨"ftp://u:p%250A@f/a%0Db"⟩).sent =
        said.map fun c ↦ lineSent (c ++ ['\r']) := by
  have hparse : Url.parse "ftp://u:p%250A@f/a%0Db" = some sampleUrl := by decide +kernel
  have hscript : script sampleUrl = Ftp.script ['u'] "p%0A".toList "/a\rb".toList := by
    have hlogin : login sampleUrl = (['u'], "p%0A".toList) := by decide +kernel
    have hpath : Percent.decode sampleUrl.path = "/a\rb".toList := by decide +kernel
    funext asked
    rw [script, hlogin, hpath]
  obtain ⟨asked, said, hsaid, -, hlines⟩ :=
    (fetchBytes_lines (sampleServers 3) (p := ⟨"ftp://u:p%250A@f/a%0Db"⟩) rfl).2 _ hparse
  refine ⟨asked, said, hscript ▸ hsaid, hlines.2 fun c _ hc ↦ ?_⟩
  cases hc with
  | user h => exact absurd h (by decide)
  | password _ h => exact absurd h (by decide +kernel)
  | path h => exact absurd h (by decide)

theorem fetchBytes_injects :
    ((sampleServers 3).fetchBytes ⟨"ftp://f/a%0D%0ADELE%20b"⟩).sent =
      [.line "USER anonymous\r", .line "PASS anonymous\r", .line "TYPE I\r", .line "PASV\r",
        .line "RETR /a\r", .line "DELE b\r", .line "QUIT\r"] ∧
    ∀ user password path asked said, said <+: Ftp.script user password path asked →
      ((sampleServers 3).fetchBytes ⟨"ftp://f/a%0D%0ADELE%20b"⟩).sent ≠
        said.map fun c ↦ lineSent (c ++ ['\r']) := by
  have hsent : ((sampleServers 3).fetchBytes ⟨"ftp://f/a%0D%0ADELE%20b"⟩).sent =
      [.line "USER anonymous\r", .line "PASS anonymous\r", .line "TYPE I\r", .line "PASV\r",
        .line "RETR /a\r", .line "DELE b\r", .line "QUIT\r"] := by decide +kernel
  refine ⟨hsent, fun user password path asked said hsaid h ↦ ?_⟩
  have hmost : said.length ≤ 6 := Nat.le_trans hsaid.length_le (Ftp.length_script_le _ _ _ _)
  have hlength := congrArg List.length h
  rw [hsent, List.length_map] at hlength
  simp at hlength
  omega

end Fetcher

end Net

end CertPath
