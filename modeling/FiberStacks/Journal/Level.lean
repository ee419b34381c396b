import FiberStacks.Text.Case

/-!
# Journal vocabulary

How severe an entry is, how entries are written, and which part of the library made them.
-/

namespace FiberStacks

open Text

inductive Level where
  | trace
  | debug
  | info
  | warn
  | error
  | off
  deriving DecidableEq

namespace Level

def rank : Level → Nat
  | trace => 0
  | debug => 1
  | info => 2
  | warn => 3
  | error => 4
  | off => 5

def name : Level → String
  | trace => "TRACE"
  | debug => "DEBUG"
  | info => "INFO"
  | warn => "WARN"
  | error => "ERROR"
  | off => "OFF"

def ofRank? : Nat → Option Level
  | 0 => some trace
  | 1 => some debug
  | 2 => some info
  | 3 => some warn
  | 4 => some error
  | 5 => some off
  | _ => none

def parse? (text : String) : Option Level :=
  match upper text with
  | "TRACE" => some trace
  | "DEBUG" => some debug
  | "INFO" => some info
  | "WARN" | "WARNING" => some warn
  | "ERROR" => some error
  | "OFF" | "NONE" => some off
  | _ => none

end Level

inductive LineFormat where
  | plain
  | json
  deriving DecidableEq

namespace LineFormat

def name : LineFormat → String
  | plain => "Plain"
  | json => "Json"

def parse? (text : String) : Option LineFormat :=
  match lower text with
  | "plain" | "text" => some plain
  | "json" => some json
  | _ => none

end LineFormat

inductive Target where
  | stack
  | cache
  | scan
  | continuation
  | domain
  | fatal
  deriving DecidableEq

namespace Target

def all : List Target := [stack, cache, scan, continuation, domain, fatal]

def name : Target → String
  | stack => "stack"
  | cache => "cache"
  | scan => "scan"
  | continuation => "continuation"
  | domain => "domain"
  | fatal => "fatal"

end Target

end FiberStacks
