import Dockerfile.Keyword

/-!
# Documentation

Short explanations of keywords, flags and directives in Markdown, shown by hover and completion.
-/

namespace Dockerfile

namespace Documentation

def keyword : Keyword → String
  | .ADD =>
      "Copy files, directories or remote URLs from `<src>` into the image at " ++
        "`<dest>`. Archives are unpacked.\n\n```\nADD [--chown=<user>:<group>] " ++
        "[--chmod=<perms>] <src>... <dest>\n```"
  | .ARG =>
      "Declare a variable users can pass at build time with `--build-arg " ++
        "<name>=<value>`.\n\n```\nARG <name>[=<default value>]\n```"
  | .CMD =>
      "Provide the default command for an executing container. Only the last `CMD` " ++
        "of a stage takes effect.\n\n```\nCMD " ++
        "[\"executable\",\"param1\",\"param2\"]\nCMD command param1 param2\n```"
  | .COPY =>
      "Copy files or directories from `<src>` (or another stage with `--from`) into " ++
        "the image at `<dest>`.\n\n```\nCOPY [--from=<stage>] [--chown=<user>:<group>] " ++
        "<src>... <dest>\n```"
  | .ENTRYPOINT =>
      "Configure the container to run as an executable. Only the last `ENTRYPOINT` " ++
        "of a stage takes effect.\n\n```\nENTRYPOINT [\"executable\", \"param1\"]\n```"
  | .ENV =>
      "Set environment variables for the rest of the stage and the running " ++
        "container.\n\n```\nENV <key>=<value> ...\n```"
  | .EXPOSE =>
      "Document the ports the container listens on.\n\n```\nEXPOSE <port>[/<protocol>] ...\n```"
  | .FROM =>
      "Start a new build stage from a base image.\n\n```\nFROM " ++
        "[--platform=<platform>] <image>[:<tag>] [AS <name>]\n```"
  | .HEALTHCHECK =>
      "Tell Docker how to test that the container is still " ++
        "working.\n\n```\nHEALTHCHECK [--interval=<d>] [--timeout=<d>] " ++
        "[--start-period=<d>] [--retries=<n>] CMD <command>\nHEALTHCHECK NONE\n```"
  | .LABEL =>
      "Add metadata to the image as key-value pairs.\n\n```\nLABEL <key>=<value> ...\n```"
  | .MAINTAINER =>
      "Deprecated. Set the author field of the image; use `LABEL maintainer=...` " ++
        "instead.\n\n```\nMAINTAINER <name>\n```"
  | .ONBUILD =>
      "Register an instruction to run when this image is used as the base of another " ++
        "build.\n\n```\nONBUILD <INSTRUCTION>\n```"
  | .RUN =>
      "Execute a command in a new layer on top of the current image.\n\n```\nRUN " ++
        "<command>\nRUN [\"executable\", \"param1\"]\n```"
  | .SHELL =>
      "Override the default shell used for the shell form of commands.\n\n```\nSHELL " ++
        "[\"executable\", \"parameters\"]\n```"
  | .STOPSIGNAL =>
      "Set the system call signal sent to the container to exit.\n\n```\nSTOPSIGNAL <signal>\n```"
  | .USER =>
      "Set the user (and optionally group) for the rest of the stage.\n\n```\nUSER " ++
        "<user>[:<group>]\n```"
  | .VOLUME =>
      "Create mount points for externally mounted volumes.\n\n```\nVOLUME [\"/data\"]\n```"
  | .WORKDIR =>
      "Set the working directory for following instructions.\n\n```\nWORKDIR " ++
        "/path/to/workdir\n```"

def flag? (keyword : Keyword) (name : String) : Option String :=
  match keyword, name with
  | .ADD, "chown" => some "Owner `user:group` of the copied files."
  | .COPY, "chown" => some "Owner `user:group` of the copied files."
  | .ADD, "chmod" => some "Permission bits of the copied files."
  | .COPY, "chmod" => some "Permission bits of the copied files."
  | .ADD, "link" => some "Copy into an independent layer."
  | .COPY, "link" => some "Copy into an independent layer."
  | .ADD, "exclude" => some "Path pattern to leave out of the copy."
  | .COPY, "exclude" => some "Path pattern to leave out of the copy."
  | .ADD, "checksum" => some "Expected checksum of a remote source."
  | .ADD, "keep-git-dir" => some "Keep the `.git` directory of a Git source."
  | .COPY, "from" =>
      some "Copy from a previous build stage, named or by index, or an image."
  | .COPY, "parents" => some "Preserve parent directories of the sources."
  | .FROM, "platform" =>
      some "Platform of the base image, such as `linux/amd64`."
  | .HEALTHCHECK, "interval" => some "Time between checks. Default `30s`."
  | .HEALTHCHECK, "timeout" =>
      some "Time after which a check is considered failed. Default `30s`."
  | .HEALTHCHECK, "start-period" =>
      some "Initialization time during which failures do not count. Default `0s`."
  | .HEALTHCHECK, "start-interval" =>
      some "Time between checks during the start period. Default `5s`."
  | .HEALTHCHECK, "retries" =>
      some "Consecutive failures needed to report unhealthy. Default `3`."
  | _, _ => none

def directive? (name : String) : Option String :=
  match name with
  | "escape" =>
      some ("Set the character used to escape characters and continue lines. Either `\\` " ++
          "(default) or `` ` ``.\n\n```\n# escape=`\n```")
  | "syntax" =>
      some ("Select the Dockerfile frontend image used by BuildKit.\n\n```\n# " ++
          "syntax=docker/dockerfile:1\n```")
  | "check" =>
      some ("Configure build checks.\n\n```\n# check=skip=<checks>;error=<true|false>\n```")
  | _ => none

/-- Variables that are set without a declaration. -/
def predefinedArguments : List String :=
  ["HTTP_PROXY", "http_proxy", "HTTPS_PROXY", "https_proxy", "FTP_PROXY", "ftp_proxy", "NO_PROXY",
   "no_proxy", "ALL_PROXY", "all_proxy", "TARGETPLATFORM", "TARGETOS", "TARGETARCH",
   "TARGETVARIANT", "BUILDPLATFORM", "BUILDOS", "BUILDARCH", "BUILDVARIANT"]

end Documentation

end Dockerfile
