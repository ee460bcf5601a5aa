import Mathlib.Data.List.TakeWhile
import MpidtBench.Library.CInteger

namespace MpidtBench
open CInteger

-- Strings are lists of characters without their terminating NUL. strtoll in base 10: blanks, a
-- sign, digits; a value that no long long holds saturates. atoi cuts a long down to an int.
def isspace (c : Char) : Bool := c == ' ' || (9 ≤ c.toNat && c.toNat ≤ 13)

def signed : List Char → Bool × List Char
  | '-' :: rest => (true,rest)
  | '+' :: rest => (false,rest)
  | rest => (false,rest)

def strtoll (s : List Char) : Int :=
  let (negative,rest) := signed (s.dropWhile isspace)
  let magnitude : Int := Nat.ofDigitChars 10 (rest.takeWhile Char.isDigit) 0
  max (-9223372036854775808) (min 9223372036854775807 (if negative then -magnitude else magnitude))

def atoll (s : List Char) : Int := strtoll s
def atoi (s : List Char) : Int := Int.bmod (strtoll s) 4294967296

-- strtok with one delimiter: the token, where the next call goes on, and what is left of
-- the string now that a NUL stands behind the token.
def strtok (delim : Char) (s : List Char) : Option (List Char × List Char × List Char) :=
  match s.dropWhile (· == delim) with
  | [] => none
  | c :: rest =>
      let token := (c :: rest).takeWhile (· != delim)
      some (token,((c :: rest).dropWhile (· != delim)).tail,s.takeWhile (· == delim) ++ token)

def strcasecmp (s : List Char) (word : String) : Bool := s.map Char.toLower == word.toList

-- The members of `options` that the latency test reads, and max_message_size.
structure Options where
  minMessageSize : Nat
  maxMessageSize : Nat
  iterations : Nat
  iterationsLarge : Nat
  skip : Nat
  skipLarge : Nat
deriving DecidableEq, Repr

-- What getopt_long returns, with its `optarg` and `optopt`.
structure Opt where
  c : Char
  optarg : List Char
  optopt : Char
deriving DecidableEq, Repr

inductive PoRet where
  | cudaNotAvail
  | openaccNotAvail
  | badUsage
  | helpMessage
  | versionMessage
  | okay
deriving DecidableEq, Repr

structure BadUsage where
  message : Option String
  optarg : Option (List Char)
  opt : Char
deriving DecidableEq, Repr

def maxMessageSize : Nat := 4194304
def latLoopSmall : Nat := 10000
def latSkipSmall : Nat := 100
def latLoopLarge : Nat := 1000
def latSkipLarge : Nat := 10
def minNumThreads : Int := 1
def maxNumThreads : Int := 128

def setMinMessageSize (value : Int) (options : Options) : Options × Int :=
  if 0 ≥ value then (options,-1) else ({options with minMessageSize := toSize value},0)

def setMaxMessageSize (value : Int) (options : Options) : Options × Int :=
  if 0 > value then (options,-1) else ({options with maxMessageSize := toSize value},0)

def setNumWarmup (value : Int) (options : Options) : Options × Int :=
  if 0 > value then (options,-1) else ({options with skip := toSize value,skipLarge := toSize value},0)

def setNumIterations (value : Int) (options : Options) : Options × Int :=
  if 1 > value then (options,-1) else ({options with iterations := toSize value,iterationsLarge := toSize value},0)

-- [MIN:]MAX, or MIN: alone. With both, only what the second setter returns counts. The last
-- component is what strtok leaves of the argument.
def setMessageSize (valStr : List Char) (options : Options) : Options × Int × List Char :=
  let count := valStr.count ':'
  if count = 0 then
    let (options,retval) := setMaxMessageSize (atoll valStr) options
    (options,retval,valStr)
  else if count = 1 then
    match strtok ':' valStr with
    | none => (options,-1,valStr)
    | some (val1,rest,left) =>
        match strtok ':' rest with
        | some (val2,_,_) =>
            let (options,_) := setMinMessageSize (atoll val1) options
            let (options,retval) := setMaxMessageSize (atoll val2) options
            (options,retval,left)
        | none =>
            let (options,retval) := if valStr.head? = some ':' then setMaxMessageSize (atoll val1) options
              else setMinMessageSize (atoll val1) options
            (options,retval,left)
  else (options,-1,valStr)

def refuse (message : Option String) (optarg : Option (List Char)) (opt : Char) : Except (PoRet × BadUsage) α :=
  .error (.badUsage,⟨message,optarg,opt⟩)

def accept (message : String) (opt : Opt) (set : Options × Int) : Except (PoRet × BadUsage) Options :=
  if set.2 ≠ 0 then refuse (some message) (some opt.optarg) opt.c else .ok set.1

-- One turn of the getopt loop, for a point-to-point latency test that is built without CUDA
-- and OpenACC. An option that only sets members the test does not read keeps its checks.
def processOption (options : Options) (opt : Opt) : Except (PoRet × BadUsage) Options :=
  match opt.c with
  | 'h' => .error (.helpMessage,⟨none,none,'h'⟩)
  | 'v' => .error (.versionMessage,⟨none,none,'v'⟩)
  | 'm' =>
      let (options,retval,left) := setMessageSize opt.optarg options
      accept "Invalid Message Size" {opt with optarg := left} (options,retval)
  | 't' =>
      accept "Invalid Number of Threads" opt
        (options,if atoi opt.optarg < minNumThreads ∨ maxNumThreads ≤ atoi opt.optarg then -1 else 0)
  | 'i' => accept "Invalid Number of Iterations" opt (setNumIterations (atoi opt.optarg) options)
  | 'x' => accept "Invalid Number of Warmup Iterations" opt (setNumWarmup (atoi opt.optarg) options)
  | 'R' => if atoi opt.optarg ≠ 0 ∧ atoi opt.optarg ≠ 1 then refuse none none 'R' else .ok options
  | 'W' => accept "Invalid Window Size" opt (options,if 1 > atoi opt.optarg then -1 else 0)
  | 'V' => .ok options
  | 'p' => .ok options
  | 'a' => accept "Invalid Device Array Size" opt (options,if atoi opt.optarg < 1 then -1 else 0)
  | 'f' => .ok options
  | 'M' => .ok options
  | 'd' => refuse (some "Benchmark Does Not Support Accelerator Transfers") (some opt.optarg) 'd'
  | 'r' => refuse (some "CUDA Kernel Support Not Enabled\nPlease recompile benchmark with CUDA Kernel support") (some opt.optarg) 'r'
  | 'w' =>
      if strcasecmp opt.optarg "create" || strcasecmp opt.optarg "allocate" || strcasecmp opt.optarg "dynamic" then .ok options
      else refuse none none 'w'
  | 's' =>
      if strcasecmp opt.optarg "pscw" || strcasecmp opt.optarg "fence" || strcasecmp opt.optarg "lock" ||
          strcasecmp opt.optarg "flush" || strcasecmp opt.optarg "flush_local" || strcasecmp opt.optarg "lock_all" then .ok options
      else refuse none none 's'
  | ':' => refuse (some "Option Missing Required Argument") none opt.optopt
  | _ => refuse (some "Invalid Option") none opt.optopt

-- Point-to-point latency starts at 0, where the other tests start at 1.
def defaultOptions : Options := ⟨0,maxMessageSize,latLoopSmall,latLoopLarge,latSkipSmall,latSkipLarge⟩

def processOptions (opts : List Opt) : Except (PoRet × BadUsage) Options := opts.foldlM processOption defaultOptions

end MpidtBench
