import Sphere.Http.Worker
import Sphere.Lib.Transition

/-! `HttpService` with its threads: one acceptor and any number of workers, the clock
and epoll. -/

namespace Sphere.Http

open Lib Net

/-- `halted` once an exception has left a worker, which terminates the process. -/
structure System where
  service : Service
  acceptor : Acceptor
  worker : ℕ → Worker
  halted : Bool

def System.start (connTimeo kaConnTimeo : ℕ) : System where
  service := .start connTimeo kaConnTimeo
  acceptor := .idle
  worker := fun _ => ⟨.waiting, [], 0⟩
  halted := false

inductive Act
  | acceptor (x : AcceptorInput)
  | worker (i : ℕ) (x : Input)
  | clock (t : ℤ)
  | raise (i : ℕ) (e : Event)

/-- Epoll reports `e`: the socket is watched for what the event says, and is not
watched again until it is told to (`EPOLLONESHOT`). -/
def Service.raise (s : Service) (e : Event) : Option Service :=
  match (s.conn e.place).watch with
  | .armed opt =>
    if e.conn = (s.conn e.place).id ∧ (e.isIn → opt.has READ) ∧ (e.isOut → opt.has WRITE) then
      some (s.setConn e.place { s.conn e.place with watch := .disabled })
    else none
  | _ => none

def System.step (σ : System) (a : Act) : Option System :=
  if σ.halted then none
  else
    match a with
    | .acceptor x =>
      (σ.acceptor.step false x σ.service).map fun r =>
        { σ with service := r.1, acceptor := r.2 }
    | .worker i x =>
      ((σ.worker i).step i x σ.service).map fun r =>
        { σ with service := r.1, worker := Function.update σ.worker i r.2.1, halted := r.2.2 }
    | .clock t => some { σ with service := { σ.service with now := t } }
    | .raise i e =>
      -- `epoll_wait` gathers the batch of a worker that is inside it
      if (σ.worker i).pc = .waiting then
        (σ.service.raise e).map fun s =>
          { σ with
            service := s
            worker := Function.update σ.worker i
              { σ.worker i with events := (σ.worker i).events ++ [e] } }
      else none

abbrev System.run (σ : System) (as : List Act) : Option System := Transition.run System.step σ as

/-! Pieces of runs. -/

def plainInput : Input := ⟨⟨[], [.wrote 1000], []⟩, .finish, false, .empty⟩

def accepts (n : ℕ) : List Act := List.replicate n (.acceptor ⟨true, .empty⟩)

def works (i n : ℕ) : List Act := List.replicate n (.worker i plainInput)

/-- The worker serves an event whose reads answer `bytes`, the end of the stream if there
are none, and whose listener answers `replies`. -/
def reads (i : ℕ) (bytes : {b : List UInt8 // b.length ≤ BUF_SIZE}) (replies : List Responce) :
    List Act :=
  [.worker i { plainInput with script := ⟨[.data bytes], [], replies⟩ }]

/-- A client connects and closes its end. -/
def eofRun : List Act :=
  accepts 8 ++ [.raise 0 ⟨0, 0, true, false⟩] ++ works 0 3 ++ reads 0 (oneRead []) [] ++ works 0 4

end Sphere.Http
