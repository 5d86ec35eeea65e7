/-!
The contract of the service that knows the trusted environment and the public keys of its users.
-/

namespace Confidential.Service

/-- The name of the contract, and of its file without the ending. -/
def name : String :=
  "CloakService"

def contract : String :=
  String.intercalate "\n" [
    "// SPDX-License-Identifier: Apache-2.0",
    "",
    "pragma solidity ^0.8.0;",
    "",
    "contract CloakService \x7b",
    "    address public teeAddr;",
    "    mapping(address => bytes) public pks;",
    "    mapping(address => bool) hasAnnounced;",
    "",
    "    modifier check_public_key(bytes memory pk) \x7b",
    "        require(pk.length == 65, \"Invalid public key length\");",
    "        require(pk[0] == 0x04, \"Unkown public key format\");",
    "        _;",
    "    \x7d",
    "",
    "    // TODO: add tee proof",
    "    function setTEEAddress(bytes memory pk) public \x7b",
    "        require(teeAddr == address(0), \"TEE has already register\");",
    "        teeAddr = msg.sender;",
    "        announcePk(pk);",
    "    \x7d",
    "",
    "    function getTEEAddress() public view returns (address) \x7b",
    "        return teeAddr;",
    "    \x7d",
    "    ",
    "    function announcePk(bytes memory pk) check_public_key(pk) public \x7b",
    "        require(!hasAnnounced[msg.sender], \"Address has already announced\");",
    "        pks[msg.sender] = pk;",
    "        hasAnnounced[msg.sender] = true;",
    "    \x7d",
    "",
    "    function getPk(address[] memory addrs) public view returns(bytes[] memory) \x7b",
    "        bytes[] memory res = new bytes[](addrs.length);",
    "        for (uint i = 0; i < addrs.length; i++) \x7b",
    "            require(hasAnnounced[addrs[i]], \"Address has no announced\");",
    "            res[i] = pks[addrs[i]];",
    "        \x7d",
    "        return res;",
    "    \x7d",
    "\x7d",
    ""]

end Confidential.Service
