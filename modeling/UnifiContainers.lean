import UnifiContainers.Lib.Run
import UnifiContainers.Lib.Regex
import UnifiContainers.Lib.PyText
import UnifiContainers.Lib.Traced
import UnifiContainers.Lib.Fallible
import UnifiContainers.Lib.Git
import UnifiContainers.Lib.FileTree
import UnifiContainers.Lib.EnvFile
import UnifiContainers.Lib.PathWalk
import UnifiContainers.Lib.Search
import UnifiContainers.Lib.Finditer
import UnifiContainers.Lib.Template
import UnifiContainers.Lib.LinkedList
import UnifiContainers.Lib.OrderedDict
import UnifiContainers.Properties.Escape
import UnifiContainers.Properties.Reading
import UnifiContainers.Properties.Meaning
import UnifiContainers.Properties.Writing
import UnifiContainers.Properties.Elements
import UnifiContainers.Properties.Editing
import UnifiContainers.Properties.File
import UnifiContainers.Properties.Edits
import UnifiContainers.Properties.Merge
import UnifiContainers.Properties.Overhang
import UnifiContainers.Release.Tag
import UnifiContainers.Release.Order
import UnifiContainers.Release.Plan
import UnifiContainers.Release.Cut
import UnifiContainers.Release.Retry
import UnifiContainers.Release.Workflow
import UnifiContainers.Release.Slide
import UnifiContainers.Release.Publish
import UnifiContainers.Release.Provenance
import UnifiContainers.Runtime.Readiness
import UnifiContainers.Runtime.Gate
import UnifiContainers.Runtime.ApiKey
import UnifiContainers.Runtime.KeyBoots
import UnifiContainers.Runtime.Logins
import UnifiContainers.Runtime.SeedEnv
import UnifiContainers.Runtime.ReadyzEnv
import UnifiContainers.Runtime.OwnerSetup
import UnifiContainers.Runtime.Fleet
import UnifiContainers.Runtime.SystemProperties
import UnifiContainers.Properties.Library
import UnifiContainers.Runtime.Ports
import UnifiContainers.Runtime.Supervisor
import UnifiContainers.Runtime.Ladder
import UnifiContainers.Runtime.Migration
import UnifiContainers.Runtime.Boots
import UnifiContainers.Runtime.ConsoleId
import UnifiContainers.Runtime.Hooks
import UnifiContainers.Runtime.VendorCheck
import UnifiContainers.Runtime.Stamps
import UnifiContainers.Runtime.JvmOptions
import UnifiContainers.Release.MakeSeed
import UnifiContainers.Runtime.Clients
import UnifiContainers.Runtime.Transport
import UnifiContainers.Runtime.OwnerRun
import UnifiContainers.Updaters.Pins
import UnifiContainers.Updaters.Firmware
import UnifiContainers.Updaters.Network
import UnifiContainers.Updaters.Uos
import UnifiContainers.Updaters.Refusals
import UnifiContainers.Updaters.Tagging
import UnifiContainers.Updaters.NetworkPins
import UnifiContainers.Updaters.Verify
import UnifiContainers.Updaters.Links
import UnifiContainers.Updaters.UosPins
import UnifiContainers.Updaters.Extract
import UnifiContainers.Updaters.Lanes
import UnifiContainers.Updaters.Pulls
import UnifiContainers.Updaters.SimKeys
