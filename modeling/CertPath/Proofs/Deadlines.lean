import CertPath.Proofs.Concurrency
import CertPath.Proofs.Fetching
import CertPath.Proofs.SizeLimit

namespace CertPath

namespace Net

namespace Http

variable {max : UInt64}

theorem Response.accept_ne_hang (r : Response) (url : String) (max : UInt64) :
    r.accept url max ≠ .hang := by
  unfold accept read
  split
  · split
    · nofun
    · split <;> nofun
  · nofun

end Http

namespace Ftp

def Avoids {α : Type} (e : Trouble) (x : Session α) : Prop := ∀ d, (x.run d).1 ≠ .error e

section Avoids

variable {α β : Type} {e e' : Trouble} {x : Session α} {k : α → Session β} {d : Dialog}
  {server : Server} {user password path : List Char} {max : UInt64}

theorem fst_run_bind_ne (hx : (x.run d).1 ≠ .error e) (hk : ∀ a, Avoids e (k a)) :
    ((x >>= k).run d).1 ≠ .error e := by
  rcases hr : x.run d with ⟨e' | a, d'⟩
  · rw [run_bind_of_error hr]
    rw [hr] at hx
    intro h
    cases h
    exact hx rfl
  · rw [run_bind_of_ok hr]
    exact hk a d'

theorem Avoids.bind (hx : Avoids e x) (hk : ∀ a, Avoids e (k a)) : Avoids e (x >>= k) :=
  fun d ↦ fst_run_bind_ne (hx d) hk

theorem avoids_pure (a : α) : Avoids e (pure a) := nofun

theorem avoids_throw (h : e' ≠ e) : Avoids e (throw e' : Session α) := by
  intro _ he
  cases he
  exact h rfl

theorem Avoids.unless {c : Prop} [Decidable c] (h : e' ≠ e) (hx : Avoids e x) :
    Avoids e (if c then throw e' >>= fun _ : Unit ↦ x else x) := by
  split
  · exact (avoids_throw h).bind fun _ ↦ hx
  · exact hx

theorem avoids_get : Avoids e (get : Session Dialog) := nofun

theorem avoids_send (server : Server) (command : List Char) : Avoids e (send server command) :=
  nofun

theorem avoids_await {silence : Trouble} (hb : .bad ≠ e) (hs : silence ≠ e) (codes : List Nat) :
    Avoids e (await silence codes) := by
  refine avoids_get.bind fun d ↦ ?_
  split
  · split
    · exact avoids_throw hb
    · exact avoids_throw hs
  · exact avoids_throw hb
  · refine Avoids.bind (fun _ ↦ nofun) fun _ ↦ ?_
    split
    · exact avoids_pure _
    · exact avoids_throw hb

theorem fst_run_enter_ne (hb : .bad ≠ e) (ht : .timeout ≠ e)
    (hg : ((await .hang [220]).run d).1 ≠ .error e) :
    ((enter server user password).run d).1 ≠ .error e := by
  have htype : Avoids e (send server "TYPE I".toList >>= fun _ ↦
      await .timeout [200] >>= fun _ ↦ pure ()) :=
    (avoids_send server _).bind fun _ ↦ (avoids_await hb ht _).bind fun _ ↦ avoids_pure ()
  refine fst_run_bind_ne hg fun _ ↦ ?_
  refine (avoids_send server _).bind fun _ ↦ (avoids_await hb ht _).bind fun r ↦ ?_
  dsimp only
  split
  · exact (avoids_send server _).bind fun _ ↦ (avoids_await hb ht _).bind fun _ ↦ htype
  · exact htype

theorem avoids_openFile (hb : .bad ≠ e) (ht : .timeout ≠ e) (server : Server)
    (path : List Char) : Avoids e (openFile server path) := by
  unfold openFile
  refine (avoids_send server _).bind fun _ ↦ ((avoids_await hb ht _).bind fun r ↦ ?_ :)
  refine Avoids.unless hb ((avoids_send server _).bind fun _ ↦ (avoids_get.bind fun d ↦ ?_ :))
  split
  · exact avoids_throw hb
  · exact avoids_throw ht
  · exact (avoids_await hb ht _).bind fun _ ↦ avoids_pure _

theorem avoids_readFile (hb : .bad ≠ e) (ht : .timeout ≠ e) (server : Server) {file : Incoming}
    (hd : drain max file ≠ .error e) : Avoids e (readFile server max file) := by
  have hdrain : Avoids e (ExceptT.mk (pure (drain max file)) : Session Bytes) := fun _ ↦ hd
  exact hdrain.bind fun _ ↦ (avoids_await hb ht _).bind fun _ ↦
    (avoids_send server _).bind fun _ ↦ avoids_pure _

theorem fst_fetch_ne (hb : .bad ≠ e) (ht : .timeout ≠ e)
    (hg : ((await .hang [220]).run server.start).1 ≠ .error e)
    (hd : ∀ file, drain max file ≠ .error e) :
    (fetch server user password path max).1 ≠ .error e :=
  fst_run_bind_ne (fst_run_enter_ne hb ht hg) fun _ ↦
    (avoids_openFile hb ht server path).bind fun _ ↦ avoids_readFile hb ht server (hd _)

end Avoids

/-- A server that takes a connection, and then neither greets nor hangs up. -/
def Server.IsSilent (server : Server) : Prop :=
  readReply server.greeting.text = .short ∧ server.greeting.hangsUp = false

variable {server : Server} {user password path : List Char} {max : UInt64}

theorem run_await_start (server : Server) (silence : Trouble) (codes : List Nat) :
    (await silence codes).run server.start =
      (match readReply server.greeting.text with
        | .short => throw (if server.greeting.hangsUp then .bad else silence)
        | .malformed => throw .bad
        | .reply code line rest => do
          set { server.start with unread := rest }
          if code ∈ codes then return (code, line) else throw .bad : Session (Nat × Bytes)).run
        server.start := rfl

theorem fetch_eq_hang_iff :
    (fetch server user password path max).1 = .error .hang ↔ server.IsSilent := by
  constructor
  · contrapose
    intro h
    refine fst_fetch_ne nofun nofun ?_ fun file ↦ ?_
    · rw [run_await_start]
      split
      · rename_i hshort
        cases hup : server.greeting.hangsUp with
        | true => nofun
        | false => exact absurd ⟨hshort, hup⟩ h
      · nofun
      · split <;> nofun
    · unfold drain
      split <;> nofun
  · rintro ⟨hshort, hup⟩
    have hawait : (await .hang [220]).run server.start = (.error .hang, server.start) := by
      rw [run_await_start, hshort, hup]
      rfl
    have henter : (enter server user password).run server.start = (.error .hang, server.start) :=
      run_bind_of_error hawait
    have hretrieve : (retrieve server user password path max).run server.start =
        (.error .hang, server.start) := run_bind_of_error henter
    exact congrArg Prod.fst hretrieve

end Ftp

namespace Fetcher

variable {f : Fetcher} {p : DistributionPoint}

/-- A point of a server that keeps silent after it has taken the connection. -/
def MeetsSilence (f : Fetcher) (p : DistributionPoint) : Prop :=
  ∃ u server, p.scheme = .ok .ftp ∧ Url.parse p.url = some u ∧ u.host ≠ [] ∧
    f.network (String.ofList u.host) (u.portNumber 21) = .ftp server ∧ server.IsSilent

theorem httpGet_ne_hang (f : Fetcher) (url : String) : (f.httpGet url).outcome ≠ .hang := by
  unfold httpGet
  split
  · nofun
  · split
    · nofun
    · dsimp only
      split
      · nofun
      · nofun
      · exact Http.Response.accept_ne_hang _ _ _

theorem ldapGet_returns (f : Fetcher) (url : String) :
    (f.ldapGet url).outcome ≠ .hang ∧ (f.ldapGet url).outcome ≠ .overflow := by
  unfold ldapGet
  split
  · exact ⟨nofun, nofun⟩
  · split
    · exact ⟨nofun, nofun⟩
    · split
      · dsimp only
        split
        · exact ⟨nofun, nofun⟩
        · split
          · exact ⟨nofun, nofun⟩
          · split
            · exact ⟨nofun, nofun⟩
            · split <;> exact ⟨nofun, nofun⟩
      all_goals exact ⟨nofun, nofun⟩

theorem ftpGet_eq_hang_iff {url : String} : (f.ftpGet url).outcome = .hang ↔
    ∃ u server, Url.parse url = some u ∧ u.host ≠ [] ∧
      f.network (String.ofList u.host) (u.portNumber 21) = .ftp server ∧ server.IsSilent := by
  constructor
  · intro h
    unfold ftpGet at h
    split at h
    · cases h
    · rename_i u hu
      split at h
      · cases h
      · rename_i hh
        split at h
        · cases h
        · rename_i server hn
          refine ⟨u, server, hu, hh, hn, ?_⟩
          dsimp only at h
          split at h
          · cases h
          · cases h
          · cases h
          · cases h
          · cases h
          · rename_i hr
            exact Ftp.fetch_eq_hang_iff.1 hr
        · cases h
  · rintro ⟨u, server, hu, hh, hn, hs⟩
    simp only [ftpGet, hu, if_neg hh, hn, Ftp.fetch_eq_hang_iff.2 hs]

theorem fetchBytes_eq_hang_iff : (f.fetchBytes p).outcome = .hang ↔ f.MeetsSilence p := by
  unfold fetchBytes MeetsSilence
  cases hs : p.scheme with
  | error e => simp
  | ok s =>
    cases s with
    | http => simp [httpGet_ne_hang]
    | https => simp [httpGet_ne_hang]
    | ftp => simpa using ftpGet_eq_hang_iff
    | ldap => simp [ldapGet_returns]

theorem fetch_eq_hang_iff : f.fetch p = .hang ↔ f.MeetsSilence p := by
  rw [fetch, Ending.bind_ofExcept_eq_hang_iff, fetchBytes_eq_hang_iff]

end Fetcher

end Net

namespace Asked

variable {α : Type} {f : Net.Fetcher} {a : Asked α}

end Asked

namespace Net.Fetcher

open RevocationChecker

variable {f : Fetcher} {c : Certificate} {issuer : Option Certificate}

def samplePoints : Certificate := .sample 'B' 'A' ["ftp://a/l", "file:///l"]

end Net.Fetcher

end CertPath
