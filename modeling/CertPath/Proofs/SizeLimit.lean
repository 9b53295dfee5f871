import CertPath.Net.Fetcher
import Mathlib.Data.List.Basic

namespace CertPath.Net

namespace Incoming

variable {max : UInt64} {s : Incoming} {b : Bytes}

def octets (s : Incoming) : Bytes := s.chunks.flatten

theorem fill_eq_take (n : Nat) (cs : List Bytes) : fill n cs = cs.flatten.take n := by
  induction cs generalizing n with
  | nil => rw [fill, List.flatten_nil, List.take_nil]
  | cons c cs ih => rw [fill, ih, List.flatten_cons, List.take_append]

theorem ne_size_of_lt (hmax : max.toNat < UInt64.size - 1) : max.toNat + 1 ≠ UInt64.size :=
  Nat.ne_of_lt (Nat.add_lt_of_lt_sub hmax)

theorem read_of_ends (hmax : max.toNat < UInt64.size - 1) (h : s.ends = true) :
    s.read max =
      if s.octets.length ≤ max.toNat then .ok s.octets else .error (.tooLarge (max.toNat + 1)) := by
  have hb : fill (max.toNat + 1) s.chunks = s.octets.take (max.toNat + 1) := by
    rw [fill_eq_take, octets]
  simp only [read, if_neg (ne_size_of_lt hmax), hb, h, Bool.not_true, Bool.and_false,
    Bool.false_eq_true, if_false]
  by_cases hle : s.octets.length ≤ max.toNat
  · rw [List.take_of_length_le (Nat.le_succ_of_le hle), if_neg (Nat.not_lt.2 hle), if_pos hle]
  · have hlength : (s.octets.take (max.toNat + 1)).length = max.toNat + 1 :=
      List.length_take_of_le (by omega)
    rw [hlength, if_pos (Nat.lt_succ_self _), if_neg hle]

end Incoming

namespace Http

variable {r : Response} {url : String} {max : UInt64} {b : Bytes}

/-- A success with all of its body, as long as was announced. -/
structure Response.IsWhole (r : Response) : Prop where
  success : r.isSuccess = true
  declared : ∀ n ∈ r.declared, n = r.body.octets.length
  ends : r.body.ends = true

theorem Response.IsWhole.filter_declared (h : r.IsWhole) (hle : r.body.octets.length ≤ max.toNat) :
    r.declared.filter (max.toNat < ·) = none := by
  rw [Option.filter_eq_none_iff]
  intro n hn
  simpa [h.declared n hn] using hle

theorem Response.IsWhole.accept_of_le (h : r.IsWhole) (hmax : max.toNat < UInt64.size - 1)
    (hle : r.body.octets.length ≤ max.toNat) : r.accept url max = .ok r.body.octets := by
  rw [accept, if_pos h.success, Response.read, h.filter_declared hle,
    Incoming.read_of_ends hmax h.ends, if_pos hle]

end Http

namespace Ldap

variable {e as : List Attribute} {a : Attribute} {name : String} {values : List Bytes} {b : Bytes}

theorem filter_put_of_not_wanted (h : ¬ wanted name) :
    (put name values as).filter (wanted ·.1) = as.filter (wanted ·.1) := by
  induction as with
  | nil => simp [put, h]
  | cons a as ih =>
    by_cases ha : a.1 = name
    · simp [put, ha, h]
    · simp [put, ha, List.filter_cons, ih]

theorem filter_put_of_wanted (h : wanted name) (has : as.filter (wanted ·.1) = []) :
    (put name values as).filter (wanted ·.1) = [(name, values)] := by
  induction as with
  | nil => simp [put, h]
  | cons a as ih =>
    obtain ⟨haw, has'⟩ := List.forall_mem_cons.1 (List.filter_eq_nil_iff.1 has)
    have ha : a.1 ≠ name := fun he ↦ haw (he ▸ h)
    simp [put, ha, haw, ih (List.filter_eq_nil_iff.2 has')]

section Gather

variable (g : List Attribute → Attribute → List Bytes)

theorem filter_gather (h : e.filter (wanted ·.1) = []) (as : List Attribute) :
    (e.foldl (fun as a ↦ put a.1 (g as a) as) as).filter (wanted ·.1) =
      as.filter (wanted ·.1) := by
  induction e generalizing as with
  | nil => rfl
  | cons x e ih =>
    obtain ⟨hx, he⟩ := List.forall_mem_cons.1 (List.filter_eq_nil_iff.1 h)
    rw [List.foldl_cons, ih (List.filter_eq_nil_iff.2 he), filter_put_of_not_wanted hx]

theorem filter_gather_singleton (h : e.filter (wanted ·.1) = [a]) :
    ∃ as, as.filter (wanted ·.1) = [] ∧
      (e.foldl (fun as a ↦ put a.1 (g as a) as) []).filter (wanted ·.1) = [(a.1, g as a)] := by
  obtain ⟨before, after, rfl, hbefore, ha, hafter⟩ := List.filter_eq_cons_iff.1 h
  have hbefore' := filter_gather g (List.filter_eq_nil_iff.2 hbefore) []
  refine ⟨_, hbefore', ?_⟩
  rw [List.foldl_append, List.foldl_cons, filter_gather g hafter, filter_put_of_wanted ha hbefore']

end Gather

theorem lookup_eq_none (has : as.filter (wanted ·.1) = []) (h : wanted name) :
    as.lookup name = none := by
  rw [List.lookup_eq_none_iff]
  intro a ha
  have haw := List.filter_eq_nil_iff.1 has a ha
  rw [bne_iff_ne]
  rintro rfl
  exact haw h

theorem firstValue_eq (as : List Attribute) :
    firstValue as = ((as.filter (wanted ·.1)).head?.map (·.2)).bind List.head? := by
  rw [firstValue, List.head?_filter]

theorem mem_put {x : Attribute} (h : x ∈ put name values as) : x = (name, values) ∨ x ∈ as := by
  induction as with
  | nil => exact .inl (List.mem_singleton.1 h)
  | cons a as ih =>
    by_cases ha : a.1 = name
    · rw [put, if_pos ha, List.mem_cons] at h
      exact h.imp_right (List.mem_cons_of_mem a)
    · rw [put, if_neg ha, List.mem_cons] at h
      rcases h with rfl | h
      · exact .inr List.mem_cons_self
      · exact (ih h).imp_right (List.mem_cons_of_mem a)

theorem mem_puts {x : Attribute} (h : x ∈ e.foldl (fun as a ↦ put a.1 a.2 as) as) :
    x ∈ e ∨ x ∈ as := by
  induction e generalizing as with
  | nil => exact .inr h
  | cons a e ih =>
    rcases ih h with h | h
    · exact .inl (List.mem_cons_of_mem a h)
    · rcases mem_put h with rfl | h
      · exact .inl List.mem_cons_self
      · exact .inr h

theorem valueOf_eq_none (h : ∀ x ∈ e, wanted x.1 → x.2 = []) : valueOf e = none := by
  have hbinary : (e.filter fun a ↦ !a.2.all isText).filter (wanted ·.1) = [] := by
    rw [List.filter_eq_nil_iff]
    intro x hx hw
    obtain ⟨hx, hb⟩ := List.mem_filter.1 hx
    rw [h x hx hw] at hb
    cases hb
  have htexts : firstValue (texts e) = none := by
    rw [firstValue]
    cases hfind : (texts e).find? fun a ↦ wanted a.1 with
    | none => rfl
    | some x =>
      rcases mem_puts (List.mem_of_find?_eq_some hfind) with hx | hx
      · have hw := List.find?_some hfind
        have hvalue := h x (List.mem_filter.1 hx).1 hw
        rw [Option.map_some, hvalue]
        rfl
      · cases hx
  rw [valueOf, htexts, firstValue_eq, binaries, filter_gather _ hbinary]
  rfl

theorem valueOf_eq_some (h : e.filter (wanted ·.1) = [(name, [b])]) : valueOf e = some b := by
  have hpart : ∀ q : Attribute → Bool,
      (e.filter q).filter (wanted ·.1) = [(name, [b])].filter q := by
    intro q
    rw [List.filter_comm, h]
  by_cases hb : isText b
  · have hbinary : (e.filter fun a ↦ !a.2.all isText).filter (wanted ·.1) = [] := by
      rw [hpart]
      simp [hb]
    have htext : (e.filter fun a ↦ a.2.all isText).filter (wanted ·.1) = [(name, [b])] := by
      rw [hpart]
      simp [hb]
    obtain ⟨as, -, hgather⟩ := filter_gather_singleton (fun _ a ↦ a.2) htext
    rw [valueOf, firstValue_eq, firstValue_eq, binaries, texts, filter_gather _ hbinary, hgather]
    rfl
  · have hbinary : (e.filter fun a ↦ !a.2.all isText).filter (wanted ·.1) = [(name, [b])] := by
      rw [hpart]
      simp [hb]
    obtain ⟨as, has, hgather⟩ := filter_gather_singleton (fun as a ↦
      ((as.lookup a.1).getD []) ++ a.2.filter (!isText ·) ++ a.2.filter isText) hbinary
    have hm : (name, [b]) ∈ e.filter (wanted ·.1) := h ▸ List.mem_singleton_self _
    rw [valueOf, firstValue_eq, firstValue_eq, binaries, hgather]
    simp [lookup_eq_none has (List.mem_filter.1 hm).2, hb]

theorem findSome?_valueOf {es : List Entry}
    (h : es.flatten.filter (wanted ·.1) = [(name, [b])]) : es.findSome? valueOf = some b := by
  induction es with
  | nil => cases h
  | cons e es ih =>
    rw [List.flatten_cons, List.filter_append, List.append_eq_singleton_iff] at h
    rcases h with ⟨he, hes⟩ | ⟨he, -⟩
    · have hnone := valueOf_eq_none fun x hx hw ↦ absurd hw (List.filter_eq_nil_iff.1 he x hx)
      rw [List.findSome?_cons, hnone]
      exact ih hes
    · rw [List.findSome?_cons, valueOf_eq_some he]

/-- Of all the attributes found one is wanted, and it has one value. -/
structure Answer.Holds (a : Answer) (b : Bytes) : Prop where
  success : a.code = 0
  value : ∃ name, a.entries.flatten.filter (wanted ·.1) = [(name, [b])]
  nonempty : b ≠ []

theorem Answer.Holds.value?_eq {a : Answer} (h : a.Holds b) : value? a.entries = some b := by
  obtain ⟨name, hvalue⟩ := h.value
  rw [value?, findSome?_valueOf hvalue]
  exact if_pos (decide_eq_true h.nonempty)

end Ldap

namespace Ftp

section Session

variable {α β : Type} {x : Session α} {k : α → Session β} {d d' : Dialog}

theorem run_bind_of_ok {a : α} (h : x.run d = (.ok a, d')) : (x >>= k).run d = (k a).run d' := by
  change (match x.run d with | (r, d₁) => ExceptT.bindCont k r d₁) = _
  rw [h]
  rfl

theorem run_bind_of_error {e : Trouble} (h : x.run d = (.error e, d')) :
    (x >>= k).run d = (.error e, d') := by
  change (match x.run d with | (r, d₁) => ExceptT.bindCont k r d₁) = _
  rw [h]
  rfl

end Session

variable {server : Server} {user password path : List Char} {max : UInt64} {file : Incoming}
  {b : Bytes}

def Server.start (server : Server) : Dialog :=
  ⟨[], server.greeting.text, server.greeting.hangsUp⟩

/-- A file is carried over and confirmed. -/
def Server.Delivers (server : Server) (user password path : List Char) (file : Incoming) : Prop :=
  ∃ d r, (enter server user password >>= fun _ ↦ openFile server path).run server.start =
    (.ok file, d) ∧ ((await .timeout [226, 250]).run d).1 = .ok r

theorem fst_run_readFile {d : Dialog} {r : Nat × Bytes}
    (h : ((await .timeout [226, 250]).run d).1 = .ok r) :
    ((readFile server max file).run d).1 = drain max file := by
  cases hb : drain max file with
  | error e =>
    have hdrain : (ExceptT.mk (pure (drain max file)) : Session Bytes).run d = (.error e, d) :=
      congrArg (·, d) hb
    rw [readFile, run_bind_of_error hdrain]
  | ok b =>
    have hdrain : (ExceptT.mk (pure (drain max file)) : Session Bytes).run d = (.ok b, d) :=
      congrArg (·, d) hb
    rcases ha : (await .timeout [226, 250]).run d with ⟨r', d'⟩
    obtain rfl : r' = .ok r := (congrArg Prod.fst ha).symm.trans h
    rw [readFile, run_bind_of_ok hdrain, run_bind_of_ok ha]
    rfl

theorem fetch_of_delivers (h : server.Delivers user password path file) (max : UInt64) :
    (fetch server user password path max).1 = drain max file := by
  obtain ⟨d, r, hopen, hconfirm⟩ := h
  have hrun : (retrieve server user password path max).run server.start =
      (readFile server max file).run d := by
    rw [← run_bind_of_ok (k := readFile server max) hopen, bind_assoc]
    rfl
  rw [fetch, ← Server.start, hrun]
  exact fst_run_readFile hconfirm

end Ftp

namespace Fetcher

variable {f : Fetcher} {p : DistributionPoint} {b : Bytes}

variable (f p) in
/-- A server sends all the octets that a point stands for. -/
inductive Completes : Bytes → Prop
  | web {u : Url} {r : Http.Response} {targets : List String}
      (hs : p.scheme = .ok .http ∨ p.scheme = .ok .https) (hu : Url.parse p.url = some u)
      (ht : f.network.clock + f.timeout.toNat ≤ lastSecond)
      (hr : Http.request f.connect Http.maxRedirects [] u = (.ok r, targets)) (hw : r.IsWhole) :
      Completes r.body.octets
  | ftp {u : Url} {server : Ftp.Server} {file : Incoming}
      (hs : p.scheme = .ok .ftp) (hu : Url.parse p.url = some u) (hh : u.host ≠ [])
      (hn : f.network (String.ofList u.host) (u.portNumber 21) = .ftp server)
      (hd : server.Delivers (login u).1 (login u).2 (Percent.decode u.path) file)
      (he : file.ends = true) : Completes file.octets
  | ldap {u : Url} {directory : Ldap.Directory} {a : Ldap.Answer} {b : Bytes}
      (hs : p.scheme = .ok .ldap) (hu : Url.parse p.url = some u) (hh : u.host ≠ [])
      (hn : f.network (String.ofList u.host) (u.portNumber usualLdapPort) = .ldap directory)
      (hd : directory (ldapBase u) = some a) (ha : a.Holds b) : Completes b

theorem fetchBytes_of_web (hs : p.scheme = .ok .http ∨ p.scheme = .ok .https) :
    f.fetchBytes p = f.httpGet p.url := by
  rcases hs with hs | hs <;> rw [fetchBytes, hs]

theorem Completes.outcome_of_ldap (h : f.Completes p b) (hs : p.scheme = .ok .ldap)
    (hle : b.length ≤ f.maxSize.toNat) : (f.fetchBytes p).outcome = .ok b := by
  cases h with
  | web hs' => rcases hs' with hs' | hs' <;> cases hs.symm.trans hs'
  | ftp hs' => cases hs.symm.trans hs'
  | ldap _ hu hh hn hd ha =>
    simp only [fetchBytes, hs, ldapGet, hu, if_neg hh, hn, hd, ha.success, ne_eq, not_true,
      if_false, ha.value?_eq, if_neg (Nat.not_lt.2 hle)]

theorem Completes.outcome_of_le (h : f.Completes p b) (hmax : f.maxSize.toNat < UInt64.size - 1)
    (hle : b.length ≤ f.maxSize.toNat) : (f.fetchBytes p).outcome = .ok b := by
  cases h with
  | web hs hu ht hr hw =>
    simp only [fetchBytes_of_web hs, httpGet, hu, if_neg (Nat.not_lt.2 ht), hr,
      hw.accept_of_le hmax hle]
  | ftp hs hu hh hn hd he =>
    simp only [fetchBytes, hs, ftpGet, hu, if_neg hh, hn, Ftp.fetch_of_delivers hd, Ftp.drain,
      Incoming.read_of_ends hmax he, if_pos hle]
  | ldap hs hu hh hn hd ha =>
    exact (Completes.ldap hs hu hh hn hd ha).outcome_of_ldap hs hle

def sampleFtp (file : Incoming) : Ftp.Server where
  greeting := ⟨Utf8.ofString "220 a\r\n", false⟩
  answer ls := ⟨Utf8.ofString (
    match String.ofList ((ls.getLastD []).takeWhile Char.isAlpha) with
    | "USER" => "331 b\r\n"
    | "PASS" => "230 c\r\n"
    | "TYPE" => "200 d\r\n"
    | "PASV" => "227 (127,0,0,1,1,1)\r\n"
    | _ => "150 e\r\n226 f\r\n"), false⟩
  channel _ := .carries file

def sampleServers (maxSize : UInt64) : Fetcher where
  network.peer host _ :=
    if host = "w" then .http fun _ ↦ some ⟨200, none, some 3, ⟨[[1], [2, 3]], true⟩⟩
    else if host = "f" then .ftp (sampleFtp ⟨[[1, 2], [3]], true⟩)
    else .ldap fun _ ↦ some ⟨[[("cn", [[67]]), ("certificateRevocationList", [[1, 2, 3]])]], 0⟩
  network.clock := 0
  timeout := 10
  maxSize := maxSize

theorem completes_sampleServers (maxSize : UInt64) :
    (sampleServers maxSize).Completes ⟨"http://w/l"⟩ [1, 2, 3] ∧
    (sampleServers maxSize).Completes ⟨"ftp://f/l"⟩ [1, 2, 3] ∧
    (sampleServers maxSize).Completes ⟨"ldap://d/l"⟩ [1, 2, 3] := by
  have hwhole : Http.Response.IsWhole ⟨200, none, some 3, ⟨[[1], [2, 3]], true⟩⟩ :=
    ⟨rfl, fun n hn ↦ (Option.some.inj hn).symm, rfl⟩
  have htime : 0 + (10 : UInt64).toNat ≤ lastSecond := by decide
  have hftp : (sampleServers maxSize).Completes ⟨"ftp://f/l"⟩
      (Incoming.octets ⟨[[1, 2], [3]], true⟩) :=
    .ftp rfl rfl (by decide) rfl ⟨_, _, rfl, rfl⟩ rfl
  exact ⟨.web (.inl rfl) rfl htime rfl hwhole, hftp,
    .ldap rfl rfl (by decide) rfl rfl ⟨rfl, ⟨_, rfl⟩, by decide⟩⟩

end Fetcher

end CertPath.Net
