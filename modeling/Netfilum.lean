import Netfilum.Connections.Exchange
import Netfilum.Connections.Sealed
import Netfilum.Connections.Timeouts
import Netfilum.Rpc.Accepted
import Netfilum.Rpc.Reflection
import Netfilum.Server.Confined
import Netfilum.Server.Disclosure
import Netfilum.Server.Listing
import Netfilum.Server.Start
import Netfilum.Server.Survival
import Netfilum.Client.BasicInfo
import Netfilum.Client.Constrained
import Netfilum.Client.Contents
import Netfilum.Client.Deletion
import Netfilum.Client.DriveRun
import Netfilum.Client.Handles
import Netfilum.Client.Launch
import Netfilum.Client.Loss
import Netfilum.Client.Names
import Netfilum.Client.Panics
import Netfilum.Client.Root
import Netfilum.Client.Sizes
