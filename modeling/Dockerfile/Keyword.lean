import Dockerfile.Text.Basic

/-!
# Keywords

The instructions of a Dockerfile. A word is recognised in any case; a word that is none of these
has no keyword.
-/

namespace Dockerfile

inductive Keyword where
  | ADD | ARG | CMD | COPY | ENTRYPOINT | ENV | EXPOSE | FROM | HEALTHCHECK | LABEL | MAINTAINER
  | ONBUILD | RUN | SHELL | STOPSIGNAL | USER | VOLUME | WORKDIR
  deriving DecidableEq, Repr

namespace Keyword

def all : List Keyword :=
  [ADD, ARG, CMD, COPY, ENTRYPOINT, ENV, EXPOSE, FROM, HEALTHCHECK, LABEL, MAINTAINER, ONBUILD, RUN,
   SHELL, STOPSIGNAL, USER, VOLUME, WORKDIR]

def name : Keyword → String
  | ADD => "ADD"
  | ARG => "ARG"
  | CMD => "CMD"
  | COPY => "COPY"
  | ENTRYPOINT => "ENTRYPOINT"
  | ENV => "ENV"
  | EXPOSE => "EXPOSE"
  | FROM => "FROM"
  | HEALTHCHECK => "HEALTHCHECK"
  | LABEL => "LABEL"
  | MAINTAINER => "MAINTAINER"
  | ONBUILD => "ONBUILD"
  | RUN => "RUN"
  | SHELL => "SHELL"
  | STOPSIGNAL => "STOPSIGNAL"
  | USER => "USER"
  | VOLUME => "VOLUME"
  | WORKDIR => "WORKDIR"

def text (k : Keyword) : Text :=
  k.name.toList

def ofText? (word : Text) : Option Keyword :=
  all.find? fun k => Text.sameIgnoringCase k.text word

/-- Whether leading arguments of the form `--name` or `--name=value` are flags. -/
def bearsFlags : Keyword → Bool
  | ADD | COPY | FROM | HEALTHCHECK => true
  | _ => false

/-- Whether the arguments must close their quotes. What is handed to a shell is left to the shell. -/
def checksQuotes : Keyword → Bool
  | RUN | CMD | ENTRYPOINT | SHELL | HEALTHCHECK | ONBUILD => false
  | _ => true

def declaresVariables : Keyword → Bool
  | ARG | ENV => true
  | _ => false

theorem mem_all (k : Keyword) : k ∈ all := by
  cases k <;> decide

/-- A keyword is read back from its canonical spelling. -/
theorem ofText?_text (k : Keyword) : ofText? k.text = some k := by
  cases k <;> decide

end Keyword

end Dockerfile
